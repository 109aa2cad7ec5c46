import Resolvent.Proofs.Form.Numbers
import Resolvent.Proofs.Form.Vector

/-!
# Radical extensions

A valuation in a field gives radicals values of which some are zero and some depend on each other,
so forms with radicals are not known by their values.  A `RadicalExtension` keeps them apart: its
radicals are elements of an algebra over the field, and all other atoms have the values of a
valuation, in which even the sum in a reciprocal does not matter.  Where the radicals satisfy their
equations (`RadicalExtension.Lawful`), products and natural powers of forms have the values that
they should have (`RadicalExtension.soundOn_normalize`), as long as exponents fit 32 bits and no sum
in a reciprocal is multiplied out (`Form.Tractable`).

Only natural powers of the radicals occur, so nothing has to be inverted, and radicals may be zero
divisors.
-/

namespace Resolvent

/-! ### Tame factors -/

/-- The factor is a natural power of one of the radicals, a power of the root of a positive number,
or any power of another atom. -/
def Form.Tame (radicals : List (Form × Nat)) : Atom × Int → Prop
  | (.radical f n, k) => (f, n) ∈ radicals ∧ 0 ≤ k
  | (.root q n, _) => 0 < q ∧ 2 ≤ n
  | _ => True

/-- The factors of the monomial are tame. -/
def Monomial.Tame (radicals : List (Form × Nat)) (m : Monomial) : Prop :=
  ∀ x ∈ m.factors, Form.Tame radicals x

namespace Form

/-- The factor is no power of a reciprocal that would be multiplied out. -/
def ReciprocalStays : Atom × Int → Prop
  | (.reciprocal f, k) => Stable (.reciprocal f, k)
  | _ => True

/-- The exponents of a product fit 32 bits, once those of each atom are added up, and no sum in a
reciprocal is multiplied out of it. -/
structure Tractable (factors : List (Atom × Int)) : Prop where
  /-- The exponents fit. -/
  fits : ∀ x ∈ Monomial.collectFactors factors, Fits x
  /-- Powers of reciprocals stay as they are. -/
  stays : ∀ x ∈ Monomial.collectFactors factors, ReciprocalStays x

instance : DecidablePred Fits
  | (.root _ _, _) | (.radical _ _, _) => inferInstanceAs (Decidable (_ ∧ _))
  | (.symbol _, _) | (.pi, _) | (.e, _) | (.imaginaryUnit, _) | (.apply _ _, _) | (.power _ _, _)
  | (.reciprocal _, _) => inferInstanceAs (Decidable (_ = true))

instance : DecidablePred ReciprocalStays
  | (.reciprocal _, k) => inferInstanceAs (Decidable (k < 0 → (maxExpandedPower : Int) < -k))
  | (.symbol _, _) | (.pi, _) | (.e, _) | (.imaginaryUnit, _) | (.root _ _, _) | (.radical _ _, _)
  | (.apply _ _, _) | (.power _ _, _) => isTrue trivial

instance : DecidablePred Tractable := fun factors =>
  decidable_of_iff ((∀ x ∈ Monomial.collectFactors factors, Fits x) ∧
    ∀ x ∈ Monomial.collectFactors factors, ReciprocalStays x)
    ⟨fun h => ⟨h.1, h.2⟩, fun h => ⟨h.fits, h.stays⟩⟩

variable {P : List (Form × Nat)} {factors xs ys : List (Atom × Int)}

theorem exponentSum_radical_nonneg (h : ∀ x ∈ factors, Tame P x) (f : Form) (n : Nat) :
    0 ≤ Monomial.exponentSum (.radical f n) factors :=
  (le_exponentSum fun k hk => (h (.radical f n, k) hk).2).1

theorem tame_collectFactors (h : ∀ x ∈ factors, Tame P x) :
    ∀ x ∈ Monomial.collectFactors factors, Tame P x := by
  rintro ⟨a, k⟩ hx
  obtain ⟨l, hl⟩ := Monomial.exists_of_mem_collectFactors hx
  have htame := h _ hl
  cases a with
  | radical f n =>
    have hsum := (Monomial.mem_collectFactors.1 hx).2
    dsimp only at hsum
    exact ⟨htame.1, hsum ▸ exponentSum_radical_nonneg h f n⟩
  | _ => exact htame

theorem tame_scaleExponents {m : Monomial} (h : m.Tame P) (k : Nat) :
    ∀ x ∈ m.scaleExponents k, Tame P x := by
  intro x hx
  obtain ⟨⟨a, l⟩, hy, rfl⟩ := List.mem_map.1 hx
  have htame := h _ hy
  cases a with
  | radical f n => exact ⟨htame.1, mul_nonneg htame.2 (Int.natCast_nonneg k)⟩
  | _ => exact htame

theorem tame_append {m l : Monomial} (hm : m.Tame P) (hl : l.Tame P) :
    ∀ x ∈ m.factors ++ l.factors, Tame P x :=
  fun x hx => (List.mem_append.1 hx).elim (hm x) (hl x)

theorem Tame.mono {Q : List (Form × Nat)} {x : Atom × Int} (h : Tame P x) (hPQ : P ⊆ Q) :
    Tame Q x := by
  obtain ⟨a, k⟩ := x
  cases a with
  | radical f n => exact ⟨hPQ h.1, h.2⟩
  | _ => exact h

theorem Over.tame_mono {Q : List (Form × Nat)} {f : Form} (h : f.Over (Monomial.Tame P))
    (hPQ : P ⊆ Q) : f.Over (Monomial.Tame Q) :=
  h.imp fun _ hm x hx => (hm x hx).mono hPQ

theorem tame_one (P : List (Form × Nat)) : one.Over (Monomial.Tame P) :=
  over_ofRat (fun _ hx => absurd hx List.not_mem_nil) 1

theorem clamp32_nonneg {k : Int} (h : 0 ≤ k) : 0 ≤ Width.clamp32 k := by
  unfold Width.clamp32
  split
  · omega
  · split <;> omega

/-- What stays of tame factors is tame. -/
theorem tame_of_mem_kept (power : Form → Int → Option Form)
    (h : ∀ x ∈ factors, Tame P x) {y : Atom × Int}
    (hy : y ∈ (shares power factors).flatMap Share.kept) : Tame P y := by
  rcases exists_of_mem_kept hy with ⟨⟨a, k⟩, hx, hy⟩ | ⟨n, hn, hy⟩
  · have htame := h _ hx
    have hatom := atom_of_mem_kept_share hy
    obtain ⟨b, l⟩ := y
    dsimp only at hatom
    subst hatom
    cases b with
    | radical f n =>
      refine ⟨htame.1, ?_⟩
      have hrest : 0 ≤ k % (n : Int) := by
        rcases n.eq_zero_or_pos with rfl | hn
        · simpa using htame.2
        · exact Int.emod_nonneg k (by omega)
      rw [share, radicalShare] at hy
      split at hy
      · dsimp only at hy
        split at hy
        · cases hy
        · rw [(Prod.mk.inj (List.mem_singleton.1 hy)).2]
          exact clamp32_nonneg hrest
      · rw [(Prod.mk.inj (List.mem_singleton.1 hy)).2]
        exact clamp32_nonneg htame.2
    | root q n => exact htame
    | _ => trivial
  · obtain ⟨q, k, hmem⟩ := mem_rootIndices.1 hn
    have hpos := restProduct_radicandsOf_pos (n := n) fun r l hroot => (h (.root r n, l) hroot).1
    rw [(eq_of_mem_kept_rootShare hy).1]
    exact ⟨(PerfectPower.extractWith_factorization _ hpos n).2.2, (h _ hmem).2⟩

end Form

/-! ### Values in an algebra -/

/-- Radicals as elements of an algebra over a field, and the values of all other atoms in the
field. -/
structure RadicalExtension (K R : Type*) [Field K] [CommRing R] [Algebra K R] where
  /-- The values of the atoms that are no radicals. -/
  scalar : Valuation K
  /-- The radicals that have a meaning, with their indices. -/
  radicals : List (Form × Nat)
  /-- The meaning of a radical. -/
  root : Form × Nat → R
  /-- The field has no part in radicals. -/
  scalar_radical : ∀ f n, scalar (.radical f n) = 1
  /-- Atoms other than roots have values other than zero. -/
  scalar_ne_zero : ∀ a : Atom, (∀ q n, a ≠ .root q n) → scalar a ≠ 0

namespace RadicalExtension

open Form (Tame Share Fits Stable MulWithin)

variable {K R : Type*} [Field K] [CommRing R] [Algebra K R] (E : RadicalExtension K R)

/-- The product of powers of the radicals. -/
def monomial (e : Form × Nat → Nat) : R := (E.radicals.map fun r => E.root r ^ e r).prod

/-- The exponents of radicals in a product. -/
def exponents (factors : List (Atom × Int)) (r : Form × Nat) : Nat :=
  (Monomial.exponentSum (.radical r.1 r.2) factors).toNat

/-- The value of a product of atoms. -/
def product (factors : List (Atom × Int)) : R :=
  E.monomial (exponents factors) * algebraMap K R (Monomial.factorsValue E.scalar factors)

/-- The value of a form. -/
def value (f : Form) : R :=
  (f.terms.map fun t => algebraMap K R t.2 * E.product t.1.factors).sum

/-- The radicals are distinct, the forms in them are made of radicals in the list, and their powers
are these forms. -/
structure Lawful : Prop where
  /-- No radical occurs twice. -/
  nodup : E.radicals.Nodup
  /-- No index is zero. -/
  pos : ∀ r ∈ E.radicals, 0 < r.2
  /-- The radicals in radicands are in the list. -/
  radicand : ∀ r ∈ E.radicals, r.1.Over (Monomial.Tame E.radicals)
  /-- A radical is a radical. -/
  root_pow : ∀ r ∈ E.radicals, E.root r ^ r.2 = E.value r.1

/-! ### Products of atoms -/

section Product

/-- Where all members of a list without repetitions but one give one, the product is what that
member gives. -/
theorem prod_map_of_nodup {α M : Type*} [CommMonoid M] {l : List α} (hnodup : l.Nodup) {a : α}
    (ha : a ∈ l) {g : α → M} (hone : ∀ b, b ≠ a → b ∈ l → g b = 1) : (l.map g).prod = g a := by
  classical
  rw [List.prod_map_eq_pow_single a g hone, List.count_eq_one_of_mem hnodup ha, pow_one]

variable {factors xs ys : List (Atom × Int)}

theorem monomial_zero : E.monomial 0 = 1 := by
  rw [monomial]
  exact List.prod_eq_one fun x hx => by
    obtain ⟨r, -, rfl⟩ := List.mem_map.1 hx
    exact pow_zero _

theorem monomial_add (e e' : Form × Nat → Nat) :
    E.monomial (e + e') = E.monomial e * E.monomial e' := by
  simp only [monomial, Pi.add_apply, pow_add, List.prod_map_mul]

theorem monomial_smul (k : Nat) (e : Form × Nat → Nat) :
    E.monomial (k • e) = E.monomial e ^ k := by
  induction k with
  | zero => rw [zero_smul, monomial_zero, pow_zero]
  | succ k ih => rw [succ_nsmul, monomial_add, ih, pow_succ]

theorem exponents_append (hxs : ∀ x ∈ xs, Tame E.radicals x) (hys : ∀ x ∈ ys, Tame E.radicals x) :
    exponents (xs ++ ys) = exponents xs + exponents ys := by
  funext r
  rw [exponents, Monomial.exponentSum_append]
  exact Int.toNat_add (Form.exponentSum_radical_nonneg hxs _ _)
    (Form.exponentSum_radical_nonneg hys _ _)

theorem exponents_scaleExponents {m : Monomial} (hm : m.Tame E.radicals) (k : Nat) :
    exponents (m.scaleExponents k) = k • exponents m.factors := by
  funext r
  rw [exponents, Form.exponentSum_scaleExponents, mul_comm, Int.toNat_mul (Int.natCast_nonneg k)
    (Form.exponentSum_radical_nonneg hm _ _), Int.toNat_natCast]
  rfl

theorem exponents_eq_zero (h : ∀ x ∈ factors, ∀ f n, x.1 ≠ .radical f n) :
    exponents factors = 0 := by
  funext r
  rw [exponents, Monomial.exponentSum_eq_zero fun x hx => h x hx _ _]
  rfl

theorem product_append (hxs : ∀ x ∈ xs, Tame E.radicals x) (hys : ∀ x ∈ ys, Tame E.radicals x) :
    E.product (xs ++ ys) = E.product xs * E.product ys := by
  rw [product, E.exponents_append hxs hys, monomial_add, Monomial.factorsValue_append, map_mul,
    product, product]
  ring

/-- A product without radicals has its value in the field. -/
theorem product_of_no_radical (h : ∀ x ∈ factors, ∀ f n, x.1 ≠ .radical f n) :
    E.product factors = algebraMap K R (Monomial.factorsValue E.scalar factors) := by
  rw [product, exponents_eq_zero h, monomial_zero, one_mul]

theorem product_singleton {a : Atom} (h : ∀ f n, a ≠ .radical f n) (k : Int) :
    E.product [(a, k)] = algebraMap K R (E.scalar a ^ k) := by
  rw [product_of_no_radical E (List.forall_mem_singleton.2 h), Monomial.factorsValue_cons,
    Monomial.factorsValue_nil, mul_one]

theorem product_nil : E.product [] = 1 := by
  rw [product_of_no_radical E fun x hx => absurd hx List.not_mem_nil, Monomial.factorsValue_nil,
    map_one]

theorem product_eq_prod (h : ∀ x ∈ factors, Tame E.radicals x) :
    E.product factors = (factors.map fun x => E.product [x]).prod := by
  induction factors with
  | nil => exact E.product_nil
  | cons x factors ih =>
    have hrest := fun y hy => h y (List.mem_cons_of_mem _ hy)
    rw [List.map_cons, List.prod_cons, ← ih hrest, ← List.singleton_append,
      product_append _ _ hrest]
    intro y hy
    rw [List.mem_singleton.1 hy]
    exact h x List.mem_cons_self

theorem product_scaleExponents {m : Monomial} (hm : m.Tame E.radicals) (k : Nat) :
    E.product (m.scaleExponents k) = E.product m.factors ^ k := by
  rw [product, E.exponents_scaleExponents hm, monomial_smul, Monomial.factorsValue_scaleExponents,
    zpow_natCast, product, mul_pow, map_pow]
  rfl

theorem product_radical (hnodup : E.radicals.Nodup) {f : Form} {n : Nat} {k : Int}
    (h : Tame E.radicals (.radical f n, k)) :
    E.product [(.radical f n, k)] = E.root (f, n) ^ k.toNat := by
  have hvalue : Monomial.factorsValue E.scalar [(.radical f n, k)] = 1 :=
    Monomial.factorsValue_eq_one fun x hx => by
      rw [List.mem_singleton.1 hx]
      exact E.scalar_radical f n
  have hexponents : ∀ r, exponents [(.radical f n, k)] r = if r = (f, n) then k.toNat else 0 := by
    rintro ⟨g, m⟩
    rw [exponents, Monomial.exponentSum_cons, Monomial.exponentSum_nil, add_zero]
    by_cases hr : (g, m) = (f, n)
    · obtain ⟨rfl, rfl⟩ := Prod.mk.inj hr
      rw [if_pos rfl, if_pos rfl]
    · rw [if_neg hr, if_neg fun heq => hr ?_]
      · rfl
      · obtain ⟨rfl, rfl⟩ := Atom.radical.inj heq
        rfl
  have hone : ∀ r, r ≠ (f, n) → r ∈ E.radicals → E.root r ^ exponents [(.radical f n, k)] r = 1 :=
    fun r hr _ => by rw [hexponents, if_neg hr, pow_zero]
  rw [product, hvalue, map_one, mul_one, monomial, prod_map_of_nodup hnodup h.1 hone, hexponents,
    if_pos rfl]

variable [CharZero K]

theorem ne_zero_of_tame {x : Atom × Int} (h : Tame E.radicals x) : E.scalar x.1 ≠ 0 := by
  obtain ⟨a, k⟩ := x
  cases a with
  | root q n => exact E.scalar.root_ne_zero h.1 h.2
  | _ => exact E.scalar_ne_zero _ nofun

theorem product_collectFactors (h : ∀ x ∈ factors, Tame E.radicals x) :
    E.product (Monomial.collectFactors factors) = E.product factors := by
  have hexponents : exponents (Monomial.collectFactors factors) = exponents factors := by
    funext r
    rw [exponents, Monomial.exponentSum_collectFactors]
    rfl
  rw [product, hexponents,
    Monomial.factorsValue_collectFactors fun x hx => E.ne_zero_of_tame (h x hx)]
  rfl

end Product

/-! ### Forms -/

section Value

theorem value_ofTerm [CharZero K] (m : Monomial) (q : Rat) :
    E.value (Form.ofTerm m q) = algebraMap K R q * E.product m.factors := by
  unfold Form.ofTerm
  split
  · next hq => simp [value, Form.zero, hq]
  · simp [value]

theorem value_one [CharZero K] : E.value Form.one = 1 := by
  rw [show Form.one = Form.ofTerm Monomial.one 1 from rfl, value_ofTerm,
    show Monomial.one.factors = [] from rfl, product_nil]
  simp

theorem value_eq_one_of_isOne [CharZero K] {f : Form} (h : f.isOne = true) : E.value f = 1 := by
  have hrat : f.toRat? = some 1 := by simpa [Form.isOne] using h
  obtain ⟨terms⟩ := f
  unfold Form.toRat? at hrat
  split at hrat
  · cases hrat
  · next m q hsingle =>
    simp only at hsingle
    split at hrat
    · next hm =>
      obtain rfl := Option.some.inj hrat
      have hnil : m.factors = [] := by simpa [Monomial.isOne] using hm
      simp [value, hsingle, hnil, product_nil]
    · cases hrat
  · cases hrat

variable [CharZero K]

/-- The value, as a function of the vector of a form. -/
noncomputable def vectorValue : (Monomial →₀ Rat) →+ R :=
  Finsupp.liftAddHom fun m => (AddMonoidHom.mulRight (E.product m.factors)).comp
    ((algebraMap K R).comp (Rat.castHom K)).toAddMonoidHom

theorem value_eq (f : Form) : E.value f = E.vectorValue f.vector := by
  rw [value, Form.vector, Form.termsVector, map_list_sum, List.map_map]
  congr 1
  refine List.map_congr_left fun t _ => ?_
  simp [vectorValue]

theorem value_sub (f g : Form) : E.value (f.sub g) = E.value f - E.value g := by
  rw [value_eq, value_eq, value_eq, Form.vector_sub, map_sub]

theorem value_sumAll (fs : List Form) : E.value (Form.sumAll fs) = (fs.map E.value).sum := by
  rw [value_eq, Form.vector_sumAll, map_list_sum, List.map_map]
  congr 1
  exact List.map_congr_left fun f _ => (E.value_eq f).symm

/-- The product of two forms has their value if the products of their terms have. -/
theorem value_mulWith {normalize : Rat → List (Atom × Int) → Form} {f g : Form}
    (h : ∀ s ∈ f.terms, ∀ t ∈ g.terms, E.value (Form.mulTermWith normalize s t) =
      algebraMap K R s.2 * E.product s.1.factors * (algebraMap K R t.2 * E.product t.1.factors)) :
    E.value (Form.mulWith normalize f g) = E.value f * E.value g := by
  have hrow : ∀ s ∈ f.terms,
      ((g.terms.map fun t => Form.mulTermWith normalize s t).map E.value).sum =
        algebraMap K R s.2 * E.product s.1.factors * E.value g := by
    intro s hs
    rw [value, ← List.sum_map_mul_left, List.map_map]
    exact congrArg List.sum (List.map_congr_left fun t ht => h s hs t ht)
  have hvalue : E.value f =
      (f.terms.map fun s => algebraMap K R s.2 * E.product s.1.factors).sum := rfl
  rw [Form.mulWith, value_sumAll, List.map_flatMap, List.flatMap_def, List.sum_flatten,
    List.map_map, hvalue, ← List.sum_map_mul_right]
  exact congrArg List.sum (List.map_congr_left hrow)

end Value

/-! ### Shares -/

section Shares

variable {power : Form → Int → Option Form} {factors : List (Atom × Int)}

/-- The value of a share. -/
def shareValue (s : Share) : R :=
  algebraMap K R s.coefficient * E.product s.kept * (s.expanded.map E.value).prod

/-- Powers of radicands have the right values, and there are no powers of sums in reciprocals. -/
def PowersSound (power : Form → Int → Option Form) : Atom × Int → Prop
  | (.radical f n, k) => ∀ p, power f (k / n) = some p → E.value p = E.value f ^ (k / n).toNat
  | (.reciprocal f, k) => k < 0 → power f (-k) = none
  | _ => True

theorem shareValue_kept (factors : List (Atom × Int)) :
    E.shareValue { kept := factors } = E.product factors := by
  simp [shareValue]

theorem shareValue_of_no_radical {s : Share} (hkept : ∀ x ∈ s.kept, ∀ f n, x.1 ≠ .radical f n)
    (hexpanded : s.expanded = []) :
    E.shareValue s = algebraMap K R (s.value E.scalar) := by
  simp [shareValue, Share.value, E.product_of_no_radical hkept, hexpanded]

/-- The whole powers of a radical are powers of its radicand. -/
theorem shareValue_radicalShare (hlaw : E.Lawful) {f : Form} {n : Nat} {k : Int}
    (htame : Tame E.radicals (.radical f n, k)) (hfits : Fits (.radical f n, k))
    (hpower : E.PowersSound power (.radical f n, k)) :
    E.shareValue (Form.radicalShare power f n k) = E.product [(.radical f n, k)] := by
  have hn : (0 : Int) < n := by exact_mod_cast hlaw.pos _ htame.1
  unfold Form.radicalShare
  split
  · next p hp =>
    have hnonneg : 0 ≤ k % (n : Int) := Int.emod_nonneg k hn.ne'
    have hwhole : 0 ≤ k / (n : Int) := Int.ediv_nonneg htame.2 hn.le
    have hexponent : k.toNat = (k % n).toNat + n * (k / n).toNat := by
      have hsplit := Int.emod_add_mul_ediv k n
      zify
      rw [Int.toNat_of_nonneg htame.2, Int.toNat_of_nonneg hnonneg, Int.toNat_of_nonneg hwhole]
      omega
    have hsplit : E.product [(.radical f n, k)] =
        E.root (f, n) ^ (k % n).toNat * E.value f ^ (k / n).toNat := by
      rw [E.product_radical hlaw.nodup htame, hexponent, pow_add, pow_mul,
        hlaw.root_pow _ htame.1]
    rw [hsplit, ← hpower p hp]
    split
    · next hzero => simp [shareValue, product_nil, hzero]
    · rw [Form.clamp32_eq hfits.2]
      simp [shareValue, E.product_radical hlaw.nodup (k := k % n) ⟨htame.1, hnonneg⟩]
  · rw [shareValue_kept, Form.clamp32_eq hfits.1]

theorem shareValue_reciprocalShare {f : Form} {k : Int} (hfits : Fits (.reciprocal f, k))
    (hpower : E.PowersSound power (.reciprocal f, k)) :
    E.shareValue (Form.reciprocalShare power f k) = E.product [(.reciprocal f, k)] := by
  have hfits : Width.isInt32 k = true := hfits
  unfold Form.reciprocalShare
  split
  · next hneg =>
    rw [hpower hneg]
    dsimp only
    rw [shareValue_kept, Form.clamp32_eq hfits]
  · rw [shareValue_kept, Form.clamp32_eq hfits]

variable [CharZero K]

theorem shareValue_unitShare (k : Int) :
    E.shareValue (Form.unitShare k) = E.product [(.imaginaryUnit, k)] := by
  rw [shareValue_of_no_radical E (fun x hx f n hradical => ?_) rfl, Form.value_unitShare,
    E.product_singleton (by simp)]
  unfold Form.unitShare at hx
  dsimp only at hx
  split at hx
  · rw [List.mem_singleton.1 hx] at hradical
    cases hradical
  · cases hx

/-- The share of a factor that is no root has its value. -/
theorem shareValue_share (hlaw : E.Lawful) {x : Atom × Int} (htame : Tame E.radicals x)
    (hfits : Fits x) (hpower : E.PowersSound power x) :
    E.shareValue (Form.share power x) = Form.atPlain (fun x => E.product [x]) x := by
  obtain ⟨a, k⟩ := x
  cases a with
  | imaginaryUnit => exact E.shareValue_unitShare k
  | radical f n => exact E.shareValue_radicalShare hlaw htame hfits hpower
  | reciprocal f => exact E.shareValue_reciprocalShare hfits hpower
  | root q n => simp [Form.share, shareValue, product_nil, Form.atPlain]
  | _ =>
    rw [Form.share, shareValue_kept, Form.clamp32_eq hfits.isInt32]
    · rfl
    all_goals simp

/-- The share of the roots with an index has their value. -/
theorem shareValue_rootShare (htame : ∀ x ∈ factors, Tame E.radicals x)
    (hfits : ∀ x ∈ factors, Fits x) {n : Nat} (hn : n ∈ Form.rootIndices factors) :
    E.shareValue (Form.rootShare factors n) =
      Form.atRoots (fun x => E.product [x]) factors n := by
  obtain ⟨q, k, hmem⟩ := Form.mem_rootIndices.1 hn
  have hroot : ∀ q k, E.product [(.root q n, k)] = algebraMap K R (E.scalar (.root q n) ^ k) :=
    fun q => E.product_singleton (by simp)
  rw [shareValue_of_no_radical E (fun x hx f m hradical => ?_) rfl,
    Form.value_rootShare E.scalar (fun r l hr => ⟨htame _ hr, hfits _ hr⟩) (htame _ hmem).2,
    Form.rootValue, map_list_prod, List.map_map, Form.atRoots]
  · exact congrArg List.prod (List.map_congr_left fun x _ => (hroot x.1 x.2).symm)
  · rw [(Form.eq_of_mem_kept_rootShare hx).1] at hradical
    cases hradical

/-- The shares of a product of atoms have its value. -/
theorem prod_shareValue (hlaw : E.Lawful) (htame : ∀ x ∈ factors, Tame E.radicals x)
    (hfits : ∀ x ∈ factors, Fits x) (hpower : ∀ x ∈ factors, E.PowersSound power x) :
    ((Form.shares power factors).map E.shareValue).prod = E.product factors := by
  have hplain : (factors.map (Form.share power)).map E.shareValue =
      factors.map (Form.atPlain fun x => E.product [x]) := by
    rw [List.map_map]
    exact List.map_congr_left fun x hx =>
      E.shareValue_share hlaw (htame x hx) (hfits x hx) (hpower x hx)
  have hroots : ((Form.rootIndices factors).map (Form.rootShare factors)).map E.shareValue =
      (Form.rootIndices factors).map (Form.atRoots (fun x => E.product [x]) factors) := by
    rw [List.map_map]
    exact List.map_congr_left fun n hn => E.shareValue_rootShare htame hfits hn
  rw [Form.shares, List.map_append, List.prod_append, hplain, hroots, E.product_eq_prod htame]
  exact (Form.prod_eq_plain_mul_roots _ (Form.nodup_rootIndices factors)
    fun q n k hmem => Form.mem_rootIndices.2 ⟨q, k, hmem⟩).symm

theorem prod_shareValue_eq {parts : List Share}
    (htame : ∀ x ∈ parts.flatMap Share.kept, Tame E.radicals x) :
    (parts.map E.shareValue).prod =
      algebraMap K R ((parts.map Share.coefficient).prod : Rat) *
        E.product (parts.flatMap Share.kept) *
        ((parts.flatMap Share.expanded).map E.value).prod := by
  induction parts with
  | nil => simp [product_nil]
  | cons s parts ih =>
    rw [List.flatMap_cons, List.forall_mem_append] at htame
    rw [List.map_cons, List.prod_cons, ih htame.2, List.map_cons, List.prod_cons, List.flatMap_cons,
      List.flatMap_cons, E.product_append htame.1 htame.2, List.map_append, List.prod_append,
      shareValue, Rat.cast_mul, map_mul]
    ring

theorem value_sharedTerm (hlaw : E.Lawful) (htame : ∀ x ∈ factors, Tame E.radicals x)
    (hfits : ∀ x ∈ factors, Fits x) (hpower : ∀ x ∈ factors, E.PowersSound power x) (c : Rat) :
    E.value (Form.sharedTerm c (Form.shares power factors)) *
        (((Form.shares power factors).flatMap Share.expanded).map E.value).prod =
      algebraMap K R c * E.product factors := by
  have hkept := fun y hy => Form.tame_of_mem_kept (y := y) power htame hy
  rw [Form.sharedTerm, value_ofTerm, E.product_collectFactors hkept, Form.sharedCoefficient_eq,
    ← E.prod_shareValue hlaw htame hfits hpower, E.prod_shareValue_eq hkept, Rat.cast_mul, map_mul]
  ring

end Shares

/-! ### Soundness -/

/-- Normalising an allowed product of tame factors gives a form of tame monomials with the value of
the product. -/
def SoundOn (allows : Rat → List (Atom × Int) → Prop)
    (normalize : Rat → List (Atom × Int) → Form) : Prop :=
  ∀ ⦃c factors⦄, allows c factors → (∀ x ∈ factors, Tame E.radicals x) →
    (normalize c factors).Over (Monomial.Tame E.radicals) ∧
      E.value (normalize c factors) = algebraMap K R c * E.product factors

namespace SoundOn

variable [CharZero K] {E} {allows : Rat → List (Atom × Int) → Prop}
  {normalize : Rat → List (Atom × Int) → Form} (h : E.SoundOn allows normalize)

include h

theorem value_mulTermWith {s t : Monomial × Rat} (hs : s.1.Tame E.radicals)
    (ht : t.1.Tame E.radicals) (hst : s.1.isOne = false → t.1.isOne = false →
      allows (s.2 * t.2) (s.1.factors ++ t.1.factors)) :
    E.value (Form.mulTermWith normalize s t) =
      algebraMap K R s.2 * E.product s.1.factors *
        (algebraMap K R t.2 * E.product t.1.factors) := by
  have hone : ∀ {m : Monomial}, m.isOne = true → E.product m.factors = 1 := by
    intro m hm
    rw [show m.factors = [] by simpa [Monomial.isOne] using hm, product_nil]
  unfold Form.mulTermWith
  dsimp only
  split
  · next ht1 =>
    rw [value_ofTerm, hone ht1, Rat.cast_mul, map_mul]
    ring
  · next ht1 =>
    split
    · next hs1 =>
      rw [value_ofTerm, hone hs1, Rat.cast_mul, map_mul]
      ring
    · next hs1 =>
      rw [(h (hst (Bool.eq_false_iff.2 hs1) (Bool.eq_false_iff.2 ht1))
        (Form.tame_append hs ht)).2, E.product_append hs ht, Rat.cast_mul, map_mul]
      ring

theorem mulSound :
    Form.MulSound allows normalize (Form.Over (Monomial.Tame E.radicals)) E.value := by
  intro f g hf hg hfg
  exact ⟨Form.over_mulWith hf hg fun s hs t ht hs1 ht1 =>
      (h (hfg s hs t ht hs1 ht1) (Form.tame_append (hf s hs).2 (hg t ht).2)).1,
    E.value_mulWith fun s hs t ht =>
      h.value_mulTermWith (hf s hs).2 (hg t ht).2 (hfg s hs t ht)⟩

/-- A power with a natural exponent has the power of the value. -/
theorem powNatWith {f : Form} (hf : f.Over (Monomial.Tame E.radicals)) {n : Nat}
    (hn : Form.PowNatWithin allows normalize f n) :
    (Form.powNatWith normalize f n).Over (Monomial.Tame E.radicals) ∧
      E.value (Form.powNatWith normalize f n) = E.value f ^ n := by
  unfold Form.powNatWith
  unfold Form.PowNatWithin at hn
  split
  · next hzero => exact ⟨Form.tame_one _, by rw [hzero, pow_zero, value_one]⟩
  · next hpos =>
    have hn := hn.resolve_left hpos
    rcases hsingle : f.singleTerm? with - | ⟨m, q⟩
    · simp only [hsingle] at hn ⊢
      have hloop := h.mulSound.powLoop (Form.tame_one _) hf hn
      rwa [value_one, one_mul] at hloop
    · simp only [hsingle] at hn ⊢
      have hterms := Form.terms_of_singleTerm? hsingle
      have hm : m.Tame E.radicals := (hf (m, q) (by simp [hterms])).2
      have hscale := Form.tame_scaleExponents hm n
      obtain ⟨htame, hvalue⟩ := h hn hscale
      refine ⟨htame, ?_⟩
      rw [hvalue, E.product_scaleExponents hm, value, hterms, List.map_singleton,
        List.sum_singleton, mul_pow, ← map_pow, ← Rat.cast_pow]
      rfl

/-- A power that is not negative has the power of the value. -/
theorem powWith {f p : Form} (hf : f.Over (Monomial.Tame E.radicals)) {k : Int} (hk : 0 ≤ k)
    (hwithin : Form.PowWithin allows normalize f k) (hp : Form.powWith normalize f k = some p) :
    p.Over (Monomial.Tame E.radicals) ∧ E.value p = E.value f ^ k.toNat := by
  obtain ⟨hsmall, rfl⟩ := Form.eq_powNatWith_of_nonneg hk hp
  unfold Form.PowWithin at hwithin
  have hn := hwithin.resolve_left (by omega)
  rw [if_neg (by omega)] at hn
  rw [show k.toNat = k.natAbs by omega]
  exact h.powNatWith hf hn

end SoundOn

section Normalization

variable [CharZero K] {E} (hlaw : E.Lawful)

include hlaw

/-- A normalised product has its value, whatever multiplies the forms that are multiplied out, as
long as that has the right values. -/
theorem value_normalizeWith {multiply : Form → Form → Form} {power : Form → Int → Option Form}
    {c : Rat} (hc : c ≠ 0) {factors : List (Atom × Int)} (htame : ∀ x ∈ factors, Tame E.radicals x)
    (htractable : Form.Tractable factors)
    (hpower : ∀ x ∈ Monomial.collectFactors factors, E.PowersSound power x)
    (hfold : let expanded :=
        (Form.shares power (Monomial.collectFactors factors)).flatMap Share.expanded
      E.value (expanded.foldl multiply Form.one) = (expanded.map E.value).prod)
    (hmultiply : let parts := Form.shares power (Monomial.collectFactors factors)
      ∀ term, term = Form.sharedTerm c parts → term.Over (Monomial.Tame E.radicals) →
      (multiply term ((parts.flatMap Share.expanded).foldl multiply Form.one)).Over
          (Monomial.Tame E.radicals) ∧
        E.value (multiply term ((parts.flatMap Share.expanded).foldl multiply Form.one)) =
          E.value term * E.value ((parts.flatMap Share.expanded).foldl multiply Form.one)) :
    (Form.normalizeWith multiply power c factors).Over (Monomial.Tame E.radicals) ∧
      E.value (Form.normalizeWith multiply power c factors) =
        algebraMap K R c * E.product factors := by
  have hcollected := Form.tame_collectFactors htame
  have hterm : (Form.sharedTerm c (Form.shares power (Monomial.collectFactors factors))).Over
      (Monomial.Tame E.radicals) :=
    Form.over_ofTerm (Form.tame_collectFactors fun _ hx =>
      Form.tame_of_mem_kept power hcollected hx) _
  have hvalue := E.value_sharedTerm hlaw hcollected htractable.fits hpower c
  rw [E.product_collectFactors htame, ← hfold] at hvalue
  rw [Form.normalizeWith_eq _ _ hc]
  dsimp only
  split
  · next hone =>
    rw [E.value_eq_one_of_isOne hone, mul_one] at hvalue
    exact ⟨hterm, hvalue⟩
  · obtain ⟨htame, hproduct⟩ := hmultiply _ rfl hterm
    exact ⟨htame, by rw [hproduct, hvalue]⟩

/-- The powers that are multiplied out of tame factors are tame, and powers of radicands have the
right values. -/
theorem powersSound {allows : Rat → List (Atom × Int) → Prop}
    {normalize : Rat → List (Atom × Int) → Form} (h : E.SoundOn allows normalize)
    {factors : List (Atom × Int)} (htame : ∀ x ∈ factors, Tame E.radicals x)
    (hstays : ∀ x ∈ factors, Form.ReciprocalStays x)
    (hwithin : ∀ x ∈ factors, Form.FactorWithin allows normalize x) :
    (∀ x ∈ factors, E.PowersSound (Form.powWith normalize) x) ∧
      ∀ g ∈ (Form.shares (Form.powWith normalize) factors).flatMap Share.expanded,
        g.Over (Monomial.Tame E.radicals) := by
  have hradical : ∀ {f m k p}, (.radical f m, k) ∈ factors →
      Form.powWith normalize f (k / (m : Nat)) = some p →
      p.Over (Monomial.Tame E.radicals) ∧ E.value p = E.value f ^ (k / (m : Nat)).toNat := by
    intro f m k p hx hp
    obtain ⟨hmem, hk⟩ := htame _ hx
    exact h.powWith (hlaw.radicand _ hmem) (Int.ediv_nonneg hk (Int.natCast_nonneg m))
      (hwithin _ hx) hp
  have hreciprocal : ∀ {f k}, (.reciprocal f, k) ∈ factors → k < 0 →
      Form.powWith normalize f (-k) = none := by
    intro f k hx hneg
    have hlarge : (Form.maxExpandedPower : Int) < -k := hstays _ hx hneg
    exact Form.powWith_of_lt _ f (by omega)
  constructor
  · rintro ⟨a, k⟩ hx
    cases a with
    | radical f m => exact fun p hp => (hradical hx hp).2
    | reciprocal f => exact hreciprocal hx
    | _ => trivial
  · intro g hg
    rcases Form.exists_of_mem_expanded hg with ⟨f, m, k, hx, hp⟩ | ⟨f, k, hx, hneg, hp⟩
    · exact (hradical hx hp).1
    · rw [hreciprocal hx hneg] at hp
      cases hp

/-- **Normalising keeps the value** in a lawful extension, and what it gives is tame. -/
theorem soundOn_normalize (n : Nat) :
    E.SoundOn (Form.NormalizeWithin Form.Tractable n) (Form.normalize n) := by
  induction n with
  | zero =>
    intro c factors h htame
    rcases eq_or_ne c 0 with rfl | hc
    · rw [Form.normalize_zero_coefficient]
      exact ⟨Form.over_zero _, by simp [value, Form.zero]⟩
    · have hpower : ∀ x : Atom × Int, E.PowersSound (fun _ _ => none) x := by
        rintro ⟨a, k⟩
        cases a <;> simp [PowersSound]
      -- no power is allowed at this level, so nothing is multiplied out
      refine value_normalizeWith hlaw hc htame (h.allows hc) (fun x _ => hpower x) ?_ ?_
      · rw [Form.flatMap_expanded_of_no_power]
        exact E.value_one
      · intro parts term _ hterm
        rw [Form.flatMap_expanded_of_no_power, List.foldl_nil, value_one, mul_one]
        exact ⟨hterm, rfl⟩
  | succ n ih =>
    intro c factors h htame
    rcases eq_or_ne c 0 with rfl | hc
    · rw [Form.normalize_zero_coefficient]
      exact ⟨Form.over_zero _, by simp [value, Form.zero]⟩
    · obtain ⟨htractable, hpowers, hexpanded, hlast⟩ := h.resolve_left hc
      obtain ⟨hsound, hforms⟩ := powersSound hlaw ih (Form.tame_collectFactors htame)
        htractable.stays hpowers
      obtain ⟨htameFold, hfold⟩ := ih.mulSound.foldl (Form.tame_one _) hforms hexpanded
      rw [value_one, one_mul] at hfold
      refine value_normalizeWith hlaw hc htame htractable hsound hfold fun term heq hterm => ?_
      rw [heq] at hterm ⊢
      exact ih.mulSound hterm htameFold hlast

end Normalization

end RadicalExtension

end Resolvent

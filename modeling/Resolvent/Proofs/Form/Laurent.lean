import Resolvent.Proofs.Form.Arithmetic
import Resolvent.Proofs.Form.Inverse
import Resolvent.Proofs.Form.Units

/-!
# Laurent polynomials

Products of symbols, the circle number, Euler's number and the imaginary unit are normalised to
single terms, so sums of them stay what they are: `Form.IsLaurent` is kept by the arithmetic of
forms that makes no reciprocal of a sum.  An `Assignment` gives the symbols and the two numbers any
values other than zero, as if they were independent, and a Laurent polynomial is known by its values
under all assignments (`Form.IsLaurent.eq_of_value`).  The proof is that of
`Form.eq_zero_of_value_twist`: assignments are the twists that keep the imaginary unit, and complex
conjugation accounts for those that do not.

The exponents in question have to fit 32 bits.  `Form.InRange` says so of one product of atoms; no
product gives rise to others here, so nothing else is asked of a multiplication
(`Form.MulWithin.admits`) or of a power (`Form.PowNatWithin.admits`).
-/

namespace Resolvent

/-! ### Terms -/

/-- The atom is a symbol, the circle number, Euler's number or the imaginary unit. -/
def Atom.IsBasic : Atom → Prop
  | .symbol _ | .pi | .e | .imaginaryUnit => True
  | _ => False

/-- The monomial is a product of powers of symbols and of constants other than roots. -/
structure Monomial.IsLaurent (m : Monomial) : Prop where
  /-- The factors are arranged. -/
  arranged : m.Arranged
  /-- The atoms are symbols and constants. -/
  basic : ∀ x ∈ m.factors, x.1.IsBasic

/-- The form is a Laurent polynomial in the symbols, the circle number and Euler's number, with
coefficients made of rational numbers and the imaginary unit. -/
structure Form.IsLaurent (f : Form) : Prop where
  /-- The monomials are in order. -/
  sorted : f.Sorted
  /-- The coefficients are not zero, and the monomials are those of a Laurent polynomial. -/
  terms : f.Over Monomial.IsLaurent

theorem Monomial.isLaurent_one : Monomial.one.IsLaurent :=
  ⟨⟨List.Pairwise.nil, nofun, nofun⟩, nofun⟩

namespace Form

variable {f g : Form} {n : Nat} {factors : List (Atom × Int)}

/-! ### Normalisation -/

/-- Nothing is multiplied out of basic atoms. -/
theorem expanded_of_isBasic (power : Form → Int → Option Form) (h : ∀ x ∈ factors, x.1.IsBasic) :
    (shares power factors).flatMap Share.expanded = [] := by
  refine List.eq_nil_iff_forall_not_mem.2 fun g hg => ?_
  rcases exists_of_mem_expanded hg with ⟨f, n, k, hx, -⟩ | ⟨f, k, hx, -⟩
  · exact h _ hx
  · exact h _ hx

/-- What stays of basic atoms are basic atoms. -/
theorem isBasic_of_mem_kept {power : Form → Int → Option Form} (h : ∀ x ∈ factors, x.1.IsBasic)
    {x : Atom × Int} (hx : x ∈ (shares power factors).flatMap Share.kept) : x.1.IsBasic := by
  rcases exists_of_mem_kept hx with ⟨y, hy, hx⟩ | ⟨n, hn, hx⟩
  · rw [atom_of_mem_kept_share hx]
    exact h y hy
  · obtain ⟨q, k, hroot⟩ := mem_rootIndices.1 hn
    exact (h _ hroot).elim

theorem isBasic_of_mem_collectFactors (h : ∀ x ∈ factors, x.1.IsBasic) {x : Atom × Int}
    (hx : x ∈ Monomial.collectFactors factors) : x.1.IsBasic :=
  Monomial.forall_collectFactors h x hx

theorem isLaurent_kept (power : Form → Int → Option Form) (h : ∀ x ∈ factors, x.1.IsBasic) :
    Monomial.IsLaurent ⟨Monomial.collectFactors
      ((shares power (Monomial.collectFactors factors)).flatMap Share.kept)⟩ := by
  have hpairwise := pairwise_kept power (Monomial.sorted_collectFactors factors)
  have hmem : ∀ x ∈ Monomial.collectFactors
      ((shares power (Monomial.collectFactors factors)).flatMap Share.kept),
      x.2 ≠ 0 ∧ x ∈ (shares power (Monomial.collectFactors factors)).flatMap Share.kept :=
    fun x hx => (Monomial.mem_collectFactors_of_pairwise hpairwise).1 hx
  have hbasic : ∀ x ∈ Monomial.collectFactors
      ((shares power (Monomial.collectFactors factors)).flatMap Share.kept), x.1.IsBasic :=
    fun x hx => isBasic_of_mem_kept (fun y hy => isBasic_of_mem_collectFactors h hy) (hmem x hx).2
  refine ⟨⟨Monomial.sorted_collectFactors _, fun x hx => ?_, fun hq _ => (hbasic _ hq).elim⟩,
    hbasic⟩
  have hx' := hbasic x hx
  obtain ⟨hne, hkept⟩ := hmem x hx
  obtain ⟨a, k⟩ := x
  cases a with
  | imaginaryUnit => exact exponent_of_mem_kept hkept rfl
  | symbol | pi | e => exact hne
  | _ => exact hx'.elim

/-- **A product of basic atoms is normalised to a single term.** -/
theorem exists_normalize_eq_ofTerm (n : Nat) (c : Rat) (h : ∀ x ∈ factors, x.1.IsBasic) :
    ∃ m q, m.IsLaurent ∧ normalize n c factors = ofTerm m q := by
  rcases eq_or_ne c 0 with rfl | hc
  · exact ⟨Monomial.one, 0, Monomial.isLaurent_one, normalize_zero_coefficient n factors⟩
  have hwith : ∀ (multiply : Form → Form → Form) (power : Form → Int → Option Form),
      normalizeWith multiply power c factors =
        sharedTerm c (shares power (Monomial.collectFactors factors)) := by
    intro multiply power
    have hone : one.isOne = true := by decide
    rw [normalizeWith_eq multiply power hc]
    dsimp only
    rw [expanded_of_isBasic power fun x hx => isBasic_of_mem_collectFactors h hx, List.foldl_nil,
      if_pos hone]
  cases n with
  | zero => exact ⟨_, _, isLaurent_kept _ h, hwith _ _⟩
  | succ n => exact ⟨_, _, isLaurent_kept _ h, hwith _ _⟩

theorem isLaurent_ofTerm {m : Monomial} (h : m.IsLaurent) (q : Rat) : (ofTerm m q).IsLaurent :=
  ⟨sorted_ofTerm m q, over_ofTerm h q⟩

theorem isLaurent_normalize (n : Nat) (c : Rat) (h : ∀ x ∈ factors, x.1.IsBasic) :
    (normalize n c factors).IsLaurent := by
  obtain ⟨m, q, hm, heq⟩ := exists_normalize_eq_ofTerm n c h
  rw [heq]
  exact isLaurent_ofTerm hm q

theorem isLaurent_ofRat (q : Rat) : (ofRat q).IsLaurent := isLaurent_ofTerm Monomial.isLaurent_one q

theorem isLaurent_ofAtom {a : Atom} (h : a.IsBasic) : (ofAtom a).IsLaurent :=
  isLaurent_normalize _ _ fun x hx => by rwa [List.mem_singleton.1 hx]

/-! ### Arithmetic -/

namespace IsLaurent

theorem add (hf : f.IsLaurent) (hg : g.IsLaurent) : (f.add g).IsLaurent :=
  ⟨hf.sorted.add hg.sorted, hf.terms.add hg.terms⟩

theorem neg (hf : f.IsLaurent) : f.neg.IsLaurent := ⟨hf.sorted.neg, hf.terms.neg⟩

theorem sub (hf : f.IsLaurent) (hg : g.IsLaurent) : (f.sub g).IsLaurent := hf.add hg.neg

theorem scale (hf : f.IsLaurent) (k : Rat) : (f.scale k).IsLaurent :=
  ⟨hf.sorted.scale k, hf.terms.scale k⟩

theorem conjugate (hf : f.IsLaurent) (hg : f.rationalizingConjugate? = some g) : g.IsLaurent := by
  refine ⟨?_, hf.terms.conjugate hg⟩
  obtain ⟨u, -, rfl⟩ := Option.map_eq_some_iff.1 hg
  exact hf.sorted.map

theorem isBasic_append (hf : f.IsLaurent) (hg : g.IsLaurent) {s t : Monomial × Rat}
    (hs : s ∈ f.terms) (ht : t ∈ g.terms) : ∀ x ∈ s.1.factors ++ t.1.factors, x.1.IsBasic :=
  fun x hx => (List.mem_append.1 hx).elim ((hf.terms s hs).2.basic x) ((hg.terms t ht).2.basic x)

theorem isBasic_scaleExponents (hf : f.IsLaurent) {m : Monomial} {q : Rat}
    (hm : f.singleTerm? = some (m, q)) (k : Int) : ∀ x ∈ m.scaleExponents k, x.1.IsBasic := by
  intro x hx
  obtain ⟨y, hy, rfl⟩ := List.mem_map.1 hx
  have hmem : (m, q) ∈ f.terms := by
    rw [terms_of_singleTerm? hm]
    exact List.mem_singleton_self _
  exact (hf.terms _ hmem).2.basic y hy

theorem mulWith (hf : f.IsLaurent) (hg : g.IsLaurent) (n : Nat) :
    (mulWith (normalize n) f g).IsLaurent :=
  ⟨sorted_mulWith (sorted_normalize n) f g, over_mulWith hf.terms hg.terms fun _ hs _ ht _ _ =>
    (isLaurent_normalize n _ (isBasic_append hf hg hs ht)).terms⟩

theorem powNatWith (hf : f.IsLaurent) (n k : Nat) : (powNatWith (normalize n) f k).IsLaurent :=
  powNatWith_of_closed (fun _ _ hf hg => hf.mulWith hg n) (isLaurent_ofRat 1) hf fun _ _ hm =>
    isLaurent_normalize n _ (hf.isBasic_scaleExponents hm _)

end IsLaurent

/-! ### Exponents in range -/

/-- The exponents of a product fit 32 bits, once those of each atom are added up. -/
def InRange (_ : Rat) (factors : List (Atom × Int)) : Prop :=
  ∀ x ∈ Monomial.collectFactors factors, Width.isInt32 x.2 = true

section Admits

variable {K : Type*} [Field K] {v : Valuation K} (hv : ∀ a : Atom, a.IsBasic → v a ≠ 0)

include hv

theorem InRange.admits {c : Rat} (h : InRange c factors) (hbasic : ∀ x ∈ factors, x.1.IsBasic)
    (n : Nat) : NormalizeWithin v.Admits n c factors := by
  have hcollected : ∀ x ∈ Monomial.collectFactors factors, Fits x ∧ Stable x := by
    intro x hx
    have hfits := h x hx
    have hx' := isBasic_of_mem_collectFactors hbasic hx
    obtain ⟨a, k⟩ := x
    cases a with
    | symbol | pi | e | imaginaryUnit => exact ⟨hfits, trivial⟩
    | _ => exact hx'.elim
  refine normalizeWithin_of_stable ⟨fun x hx => ?_, fun x hx => ?_, fun x hx => (hcollected x hx).1⟩
    (fun x hx => (hcollected x hx).2) n c
  · have hne := hv x.1 (hbasic x hx)
    have hx' := hbasic x hx
    obtain ⟨a, k⟩ := x
    cases a with
    | symbol | pi | e | imaginaryUnit => exact hne
    | _ => exact hx'.elim
  · have hx' := hbasic x hx
    obtain ⟨a, k⟩ := x
    cases a with
    | radical => exact hx'.elim
    | _ => trivial

theorem MulWithin.admits (h : MulWithin InRange f g) (hf : f.IsLaurent) (hg : g.IsLaurent)
    (n : Nat) : MulWithin (NormalizeWithin v.Admits n) f g :=
  fun s hs t ht hs1 ht1 => (h s hs t ht hs1 ht1).admits hv (hf.isBasic_append hg hs ht) n

theorem PowLoopWithin.admits {result base : Form} {k : Nat}
    (h : PowLoopWithin InRange (normalize n) result base k) (hresult : result.IsLaurent)
    (hbase : base.IsLaurent) :
    PowLoopWithin (NormalizeWithin v.Admits n) (normalize n) result base k := by
  induction k using Nat.strong_induction_on generalizing result base with
  | _ k ih =>
    rw [PowLoopWithin] at h ⊢
    split
    · trivial
    · next hpos =>
      rw [if_neg hpos] at h
      refine ⟨fun hodd => (h.1 hodd).admits hv hresult hbase n, ?_⟩
      split
      · trivial
      · next hhalf =>
        obtain ⟨hsq, hloop⟩ := by simpa only [if_neg hhalf] using h.2
        refine ⟨hsq.admits hv hbase hbase n, ih (k / 2) (by omega) hloop ?_ (hbase.mulWith hbase n)⟩
        split
        · exact hresult.mulWith hbase n
        · exact hresult

theorem PowNatWithin.admits {k : Nat} (h : PowNatWithin InRange (normalize n) f k)
    (hf : f.IsLaurent) : PowNatWithin (NormalizeWithin v.Admits n) (normalize n) f k := by
  refine h.imp_right fun h => ?_
  rcases hsingle : f.singleTerm? with - | ⟨m, q⟩
  · rw [hsingle] at h
    exact PowLoopWithin.admits hv h (isLaurent_ofRat 1) hf
  · rw [hsingle] at h
    exact InRange.admits hv h (hf.isBasic_scaleExponents hsingle _) n

end Admits

end Form

/-! ### Values -/

/-- The symbols and the numbers that have no algebraic relations. -/
inductive Indeterminate where
  /-- A symbol, by its number. -/
  | symbol (id : Nat)
  /-- The circle number. -/
  | pi
  /-- Euler's number. -/
  | e

/-- The indeterminate as an atom. -/
def Indeterminate.atom : Indeterminate → Atom
  | .symbol id => .symbol id
  | .pi => .pi
  | .e => .e

/-- A basic atom is the imaginary unit or an indeterminate. -/
theorem Atom.IsBasic.eq_or {a : Atom} (h : a.IsBasic) :
    a = .imaginaryUnit ∨ ∃ b : Indeterminate, a = b.atom := by
  cases a with
  | symbol id => exact .inr ⟨.symbol id, rfl⟩
  | pi => exact .inr ⟨.pi, rfl⟩
  | e => exact .inr ⟨.e, rfl⟩
  | imaginaryUnit => exact .inl rfl
  | _ => exact h.elim

/-- Values other than zero for the symbols, the circle number and Euler's number. -/
abbrev Assignment := Indeterminate → ℂˣ

/-- The values of all atoms, given those of the indeterminates. -/
noncomputable def Assignment.valuation (z : Assignment) : Valuation ℂ where
  toFun
    | .symbol id => z (.symbol id)
    | .pi => z .pi
    | .e => z .e
    | a => Form.unitValuation a
  imaginaryUnit_sq := Form.unitValuation.imaginaryUnit_sq
  root_pow := Form.unitValuation.root_pow
  root_mul := Form.unitValuation.root_mul
  root_of_pow := Form.unitValuation.root_of_pow

namespace Assignment

variable (z : Assignment)

theorem valuation_atom (b : Indeterminate) : z.valuation b.atom = z b := by
  cases b <;> rfl

theorem valuation_imaginaryUnit : z.valuation .imaginaryUnit = Complex.I := by
  change Atom.principal _ _ _ = _
  rw [Atom.principal]

theorem valuation_ne_zero (a : Atom) (ha : a.IsBasic) : z.valuation a ≠ 0 := by
  rcases ha.eq_or with rfl | ⟨b, rfl⟩
  · exact z.valuation.imaginaryUnit_ne_zero
  · rw [valuation_atom]
    exact (z b).ne_zero

end Assignment

section

variable {K L : Type*} [Field K] [Field L]

theorem Monomial.value_congr {v w : Atom → K} {m : Monomial}
    (h : ∀ x ∈ m.factors, v x.1 = w x.1) : m.value v = m.value w := by
  rw [value, value, factorsValue, factorsValue, List.map_congr_left fun x hx => by rw [h x hx]]

/-- The value of a form depends on the values of its atoms. -/
theorem Form.value_congr {v w : Atom → K} {f : Form}
    (h : ∀ t ∈ f.terms, ∀ x ∈ t.1.factors, v x.1 = w x.1) : f.value v = f.value w := by
  rw [value, value, termsValue, termsValue,
    List.map_congr_left fun t ht => by rw [Monomial.value_congr (h t ht)]]

theorem Monomial.map_value (σ : K →+* L) (v : Atom → K) (m : Monomial) :
    σ (m.value v) = m.value fun a => σ (v a) := by
  obtain ⟨factors⟩ := m
  simp only [value]
  induction factors with
  | nil => rw [factorsValue_nil, factorsValue_nil, map_one]
  | cons x factors ih => rw [factorsValue_cons, factorsValue_cons, map_mul, map_zpow₀, ih]

/-- Homomorphisms of fields carry values over. -/
theorem Form.map_value (σ : K →+* L) (v : Atom → K) (f : Form) :
    σ (f.value v) = f.value fun a => σ (v a) := by
  obtain ⟨terms⟩ := f
  simp only [value]
  induction terms with
  | nil => rw [termsValue_nil, termsValue_nil, map_zero]
  | cons t terms ih =>
    rw [termsValue_cons, termsValue_cons, map_add, map_mul, map_ratCast, Monomial.map_value, ih]

end

namespace Assignment

/-- The complex conjugates of the values. -/
noncomputable def conj (z : Assignment) : Assignment :=
  fun b => Units.map (starRingEnd ℂ).toMonoidHom (z b)

theorem conj_conj (z : Assignment) : z.conj.conj = z := by
  funext b
  ext
  exact Complex.conj_conj _

/-- The assignment that a twist of the assignment of one everywhere makes. -/
def ofTwist (t : Twist ℂ) : Assignment := fun b => t b.atom

/-- A twist that keeps the imaginary unit makes an assignment. -/
theorem value_ofTwist {f : Form} (hf : f.IsLaurent) {t : Twist ℂ} (ht : t .imaginaryUnit = 1) :
    f.value ((1 : Assignment).valuation.twist t) = f.value (ofTwist t).valuation := by
  refine Form.value_congr fun s hs x hx => ?_
  rw [Valuation.twist_apply]
  rcases ((hf.terms s hs).2.basic x hx).eq_or with h | ⟨b, h⟩
  · rw [h, ht, valuation_imaginaryUnit, valuation_imaginaryUnit, Units.val_one, mul_one]
  · rw [h, valuation_atom, valuation_atom, Pi.one_apply, Units.val_one, one_mul]
    rfl

/-- Any other twist makes the conjugate of one. -/
theorem value_twist_of_ne {f : Form} (hf : f.IsLaurent) {t : Twist ℂ} (ht : t .imaginaryUnit ≠ 1) :
    f.value ((1 : Assignment).valuation.twist t) =
      starRingEnd ℂ (f.value (ofTwist t).conj.valuation) := by
  have hunit : t .imaginaryUnit = -1 :=
    (Units.eq_or_eq_neg_of_sq_eq_sq _ _ (t.imaginaryUnit_sq.trans (one_pow 2).symm)).resolve_left ht
  rw [Form.map_value]
  refine Form.value_congr fun s hs x hx => ?_
  rw [Valuation.twist_apply]
  rcases ((hf.terms s hs).2.basic x hx).eq_or with h | ⟨b, h⟩
  · rw [h, hunit, valuation_imaginaryUnit, valuation_imaginaryUnit, Complex.conj_I]
    simp
  · rw [h, valuation_atom, valuation_atom, Pi.one_apply, Units.val_one, one_mul]
    exact (Complex.conj_conj _).symm

end Assignment

namespace Form.IsLaurent

variable {f g : Form}

theorem powerFree {m : Monomial} (h : m.IsLaurent) : m.PowerFree :=
  ⟨h.arranged, fun hroot => (h.basic _ hroot).elim⟩

/-- A Laurent polynomial that is worth nothing under all assignments is zero. -/
theorem eq_zero_of_value (hf : f.IsLaurent) (h : ∀ z : Assignment, f.value z.valuation = 0) :
    f = zero := by
  refine eq_zero_of_value_twist (v := (1 : Assignment).valuation) hf.sorted
    (hf.terms.imp fun m hm => ⟨powerFree hm, ?_⟩) fun t => ?_
  · exact Monomial.factorsValue_ne_zero fun x hx =>
      (1 : Assignment).valuation_ne_zero x.1 (hm.basic x hx)
  · by_cases ht : t .imaginaryUnit = 1
    · rw [Assignment.value_ofTwist hf ht, h]
    · rw [Assignment.value_twist_of_ne hf ht, h, map_zero]

/-- **Laurent polynomials are known by their values** under all assignments. -/
theorem eq_of_value (hf : f.IsLaurent) (hg : g.IsLaurent)
    (h : ∀ z : Assignment, f.value z.valuation = g.value z.valuation) : f = g :=
  eq_of_sub_eq_zero ((hf.sub hg).eq_zero_of_value fun z => by rw [value_sub, h z, sub_self])

end Form.IsLaurent

end Resolvent

import Resolvent.Proofs.Form.Normalization
import Resolvent.Proofs.Form.NormalForm

/-!
# What a computation normalises

Products, powers and inverses of forms normalise products of atoms, and normalising one may give
rise to others.  The predicates of this module say that all products that a computation normalises
are allowed, for any property `allows` of a coefficient and factors: `Form.MulWithin` of a product
of forms, `Form.PowWithin` of a power, `Form.InverseWithin` of an inverse, and
`Form.NormalizeWithin` of a product of atoms itself, to any depth.  They can be decided if `allows`
can.
-/

namespace Resolvent.Form

section

variable (allows : Rat → List (Atom × Int) → Prop)

/-- The products of atoms that a product of forms normalises are allowed. -/
def MulWithin (f g : Form) : Prop :=
  ∀ s ∈ f.terms, ∀ t ∈ g.terms, s.1.isOne = false → t.1.isOne = false →
    allows (s.2 * t.2) (s.1.factors ++ t.1.factors)

variable (normalize : Rat → List (Atom × Int) → Form)

/-- What the product of a form and the members of a list normalises is allowed. -/
def ProductWithin : Form → List Form → Prop
  | _, [] => True
  | f, g :: gs => MulWithin allows f g ∧ ProductWithin (mulWith normalize f g) gs

/-- What multiplying the squares of a base to a result normalises is allowed. -/
def PowLoopWithin (result base : Form) (n : Nat) : Prop :=
  if n = 0 then True
  else
    (n % 2 = 1 → MulWithin allows result base) ∧
      if n / 2 = 0 then True
      else MulWithin allows base base ∧
        PowLoopWithin (if n % 2 = 1 then mulWith normalize result base else result)
          (mulWith normalize base base) (n / 2)
termination_by n

/-- What a power with a natural exponent normalises is allowed. -/
def PowNatWithin (f : Form) (n : Nat) : Prop :=
  n = 0 ∨
    match f.singleTerm? with
    | some (m, q) => allows (Rat.pow q n) (m.scaleExponents n)
    | none => PowLoopWithin allows normalize one f n

/-- What the reciprocal of a sum normalises is allowed. -/
def ReciprocalWithin (f : Form) : Prop :=
  allows f.leadingCoefficient⁻¹ [(.reciprocal (f.scale f.leadingCoefficient⁻¹), 1)]

/-- What an inverse normalises is allowed, with a number of conjugates that may be used. -/
def InverseWithin : Nat → Form → Prop
  | 0, f =>
    f.isZero = true ∨
      match f.singleTerm? with
      | some (m, q) => allows q⁻¹ (m.scaleExponents (-1))
      | none => ReciprocalWithin allows f
  | budget + 1, f =>
    f.isZero = true ∨
      match f.singleTerm? with
      | some (m, q) => allows q⁻¹ (m.scaleExponents (-1))
      | none =>
        match f.rationalizingConjugate? with
        | none => ReciprocalWithin allows f
        | some conjugate =>
          MulWithin allows f conjugate ∧ InverseWithin budget (mulWith normalize f conjugate) ∧
            match inverseWith normalize budget (mulWith normalize f conjugate) with
            | some inverse => MulWithin allows conjugate inverse
            | none => ReciprocalWithin allows f

/-- What a power with a whole exponent normalises is allowed. -/
def PowWithin (f : Form) (k : Int) : Prop :=
  maxExpandedPower < k.natAbs ∨
    if k < 0 then
      InverseWithin allows normalize maxRationalizations f ∧
        ∀ g, inverseWith normalize maxRationalizations f = some g →
          PowNatWithin allows normalize g k.natAbs
    else PowNatWithin allows normalize f k.natAbs

/-- What the power that a factor gives rise to normalises is allowed. -/
def FactorWithin : Atom × Int → Prop
  | (.radical f n, k) => PowWithin allows normalize f (k / n)
  | (.reciprocal f, k) => k < 0 → PowWithin allows normalize f (-k)
  | _ => True

/-- What the forms that are multiplied out of a product of atoms normalise is allowed. -/
def ExpansionWithin (c : Rat) (factors : List (Atom × Int)) : Prop :=
  (∀ x ∈ factors, FactorWithin allows normalize x) ∧
    let parts := shares (powWith normalize) factors
    let expanded := parts.flatMap Share.expanded
    ProductWithin allows normalize one expanded ∧
      MulWithin allows (sharedTerm c parts) (expanded.foldl (mulWith normalize) one)

end

/-! ### Values of products -/

section MulSound

variable {M : Type*} [Monoid M]

/-- Products of forms of a class are of the class and have the products of their values, as far as
what they normalise is allowed. -/
def MulSound (allows : Rat → List (Atom × Int) → Prop) (normalize : Rat → List (Atom × Int) → Form)
    (C : Form → Prop) (value : Form → M) : Prop :=
  ∀ ⦃f g : Form⦄, C f → C g → MulWithin allows f g →
    C (mulWith normalize f g) ∧ value (mulWith normalize f g) = value f * value g

variable {allows : Rat → List (Atom × Int) → Prop} {normalize : Rat → List (Atom × Int) → Form}
  {C : Form → Prop} {value : Form → M} (h : MulSound allows normalize C value)

include h

theorem MulSound.foldl {gs : List Form} {f : Form} (hf : C f) (hgs : ∀ g ∈ gs, C g)
    (hwithin : ProductWithin allows normalize f gs) :
    C (gs.foldl (mulWith normalize) f) ∧
      value (gs.foldl (mulWith normalize) f) = value f * (gs.map value).prod := by
  induction gs generalizing f with
  | nil => exact ⟨hf, by simp⟩
  | cons g gs ih =>
    obtain ⟨hfg, hvalue⟩ := h hf (hgs g List.mem_cons_self) hwithin.1
    obtain ⟨hC, hfold⟩ := ih hfg (fun k hk => hgs k (List.mem_cons_of_mem _ hk)) hwithin.2
    refine ⟨hC, ?_⟩
    rw [List.foldl_cons, hfold, hvalue, List.map_cons, List.prod_cons, mul_assoc]

theorem MulSound.powLoop {result base : Form} {n : Nat} (hresult : C result) (hbase : C base)
    (hn : PowLoopWithin allows normalize result base n) :
    C (powLoop (mulWith normalize) result base n) ∧
      value (powLoop (mulWith normalize) result base n) = value result * value base ^ n := by
  induction n using Nat.strong_induction_on generalizing result base with
  | _ n ih =>
    rw [Form.powLoop]
    rw [PowLoopWithin] at hn
    split
    · next hzero => exact ⟨hresult, by simp [hzero]⟩
    · next hpos =>
      rw [if_neg hpos] at hn
      -- what the odd bit of the exponent adds to the result
      have hnext : C (if n % 2 = 1 then mulWith normalize result base else result) ∧
          value (if n % 2 = 1 then mulWith normalize result base else result) =
            value result * value base ^ (n % 2) := by
        split
        · next hodd =>
          rw [hodd, pow_one]
          exact h hresult hbase (hn.1 hodd)
        · next heven =>
          rw [show n % 2 = 0 by omega, pow_zero, mul_one]
          exact ⟨hresult, rfl⟩
      dsimp only
      split
      · next hhalf =>
        have hone : n % 2 = n := by omega
        exact ⟨hnext.1, by rw [hnext.2, hone]⟩
      · next hhalf =>
        obtain ⟨hsq, hloop⟩ := by simpa only [if_neg hhalf] using hn.2
        obtain ⟨hsquare, hvalue⟩ := h hbase hbase hsq
        obtain ⟨hC, hrest⟩ := ih (n / 2) (by omega) hnext.1 hsquare hloop
        refine ⟨hC, ?_⟩
        rw [hrest, hnext.2, hvalue, mul_assoc, ← pow_two, ← pow_mul, ← pow_add, Nat.mod_add_div]

end MulSound

/-- A product of atoms is allowed, and so are all that normalising it gives rise to. -/
def NormalizeWithin (allows : List (Atom × Int) → Prop) : Nat → Rat → List (Atom × Int) → Prop
  | 0, c, factors => c = 0 ∨ allows factors
  | n + 1, c, factors =>
    c = 0 ∨ allows factors ∧
      ExpansionWithin (NormalizeWithin allows n) (normalize n) c (Monomial.collectFactors factors)

theorem NormalizeWithin.allows {allows : List (Atom × Int) → Prop} {n : Nat} {c : Rat}
    {factors : List (Atom × Int)} (h : NormalizeWithin allows n c factors) (hc : c ≠ 0) :
    allows factors := by
  cases n with
  | zero => exact h.resolve_left hc
  | succ n => exact (h.resolve_left hc).1

/-! ### Deciding -/

theorem powLoopWithin_iff {allows : Rat → List (Atom × Int) → Prop}
    {normalize : Rat → List (Atom × Int) → Form} {result base : Form} {n : Nat} (hn : n ≠ 0) :
    PowLoopWithin allows normalize result base n ↔
      (n % 2 = 1 → MulWithin allows result base) ∧
        (n / 2 = 0 ∨ MulWithin allows base base ∧
          PowLoopWithin allows normalize
            (if n % 2 = 1 then mulWith normalize result base else result)
            (mulWith normalize base base) (n / 2)) := by
  conv_lhs => rw [PowLoopWithin, if_neg hn]
  by_cases h : n / 2 = 0 <;> simp [h]

section Decidable

variable (allows : Rat → List (Atom × Int) → Prop) [∀ c factors, Decidable (allows c factors)]
  (normalize : Rat → List (Atom × Int) → Form)

instance (f g : Form) : Decidable (MulWithin allows f g) :=
  inferInstanceAs (Decidable (∀ s ∈ f.terms, ∀ t ∈ g.terms, _ → _ → _))

instance decidableProductWithin : (f : Form) → (gs : List Form) →
    Decidable (ProductWithin allows normalize f gs)
  | _, [] => isTrue trivial
  | f, g :: gs =>
    have := decidableProductWithin (mulWith normalize f g) gs
    inferInstanceAs (Decidable (MulWithin allows f g ∧ _))

@[reducible]
instance decidablePowLoopWithin (result base : Form) (n : Nat) :
    Decidable (PowLoopWithin allows normalize result base n) :=
  if h : n = 0 then
    isTrue (by rw [PowLoopWithin, if_pos h]; trivial)
  else
    have := decidablePowLoopWithin (if n % 2 = 1 then mulWith normalize result base else result)
      (mulWith normalize base base) (n / 2)
    decidable_of_iff _ (powLoopWithin_iff h).symm
termination_by n

instance (f : Form) (n : Nat) : Decidable (PowNatWithin allows normalize f n) :=
  match h : f.singleTerm? with
  | some (m, q) => decidable_of_iff (n = 0 ∨ allows (Rat.pow q n) (m.scaleExponents n))
      (by rw [PowNatWithin, h])
  | none => decidable_of_iff (n = 0 ∨ PowLoopWithin allows normalize one f n)
      (by rw [PowNatWithin, h])

instance (f : Form) : Decidable (ReciprocalWithin allows f) :=
  inferInstanceAs (Decidable (allows _ _))

instance decidableInverseWithin : (budget : Nat) → (f : Form) →
    Decidable (InverseWithin allows normalize budget f)
  | 0, f =>
    match h : f.singleTerm? with
    | some (m, q) => decidable_of_iff (f.isZero = true ∨ allows q⁻¹ (m.scaleExponents (-1)))
        (by rw [InverseWithin, h])
    | none => decidable_of_iff (f.isZero = true ∨ ReciprocalWithin allows f)
        (by rw [InverseWithin, h])
  | budget + 1, f =>
    match h : f.singleTerm?, hc : f.rationalizingConjugate? with
    | some (m, q), _ => decidable_of_iff (f.isZero = true ∨ allows q⁻¹ (m.scaleExponents (-1)))
        (by rw [InverseWithin, h])
    | none, none => decidable_of_iff (f.isZero = true ∨ ReciprocalWithin allows f)
        (by rw [InverseWithin, h, hc])
    | none, some conjugate =>
      have := decidableInverseWithin budget (mulWith normalize f conjugate)
      match hi : inverseWith normalize budget (mulWith normalize f conjugate) with
      | some inverse => decidable_of_iff (f.isZero = true ∨ MulWithin allows f conjugate ∧
            InverseWithin allows normalize budget (mulWith normalize f conjugate) ∧
              MulWithin allows conjugate inverse)
          (by rw [InverseWithin, h]; simp only [hc, hi])
      | none => decidable_of_iff (f.isZero = true ∨ MulWithin allows f conjugate ∧
            InverseWithin allows normalize budget (mulWith normalize f conjugate) ∧
              ReciprocalWithin allows f)
          (by rw [InverseWithin, h]; simp only [hc, hi])

instance (f : Form) (k : Int) : Decidable (PowWithin allows normalize f k) :=
  inferInstanceAs (Decidable (maxExpandedPower < k.natAbs ∨
    if k < 0 then
      InverseWithin allows normalize maxRationalizations f ∧
        ∀ g ∈ inverseWith normalize maxRationalizations f,
          PowNatWithin allows normalize g k.natAbs
    else PowNatWithin allows normalize f k.natAbs))

instance : (x : Atom × Int) → Decidable (FactorWithin allows normalize x)
  | (.radical f n, k) => inferInstanceAs (Decidable (PowWithin allows normalize f (k / n)))
  | (.reciprocal f, k) => inferInstanceAs (Decidable (k < 0 → PowWithin allows normalize f (-k)))
  | (.symbol _, _) | (.pi, _) | (.e, _) | (.imaginaryUnit, _) | (.root _ _, _) | (.apply _ _, _)
  | (.power _ _, _) => isTrue trivial

instance (c : Rat) (factors : List (Atom × Int)) :
    Decidable (ExpansionWithin allows normalize c factors) :=
  inferInstanceAs (Decidable (_ ∧ _ ∧ _))

end Decidable

instance decidableNormalizeWithin (allows : List (Atom × Int) → Prop) [DecidablePred allows] :
    (n : Nat) → (c : Rat) → (factors : List (Atom × Int)) →
      Decidable (NormalizeWithin allows n c factors)
  | 0, _, _ => inferInstanceAs (Decidable (_ ∨ _))
  | n + 1, _, _ =>
    have := decidableNormalizeWithin allows n
    inferInstanceAs (Decidable (_ ∨ _ ∧ _))

end Resolvent.Form

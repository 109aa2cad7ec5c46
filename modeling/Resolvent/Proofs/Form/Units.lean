import Resolvent.Proofs.Form.Monomials
import Resolvent.Proofs.Form.Unfolding

/-!
# The imaginary unit in forms

`Form.UnitReduced` says that the imaginary unit occurs in a product once at most and with exponent
one, in radicands and under reciprocals as well.  Arithmetic keeps this, so such a form is its real
part plus the imaginary unit times its imaginary part (`Form.UnitReduced.value_split`).
-/

namespace Resolvent

mutual

/-- The imaginary unit is reduced in the forms that arithmetic takes out of the atom. -/
inductive Atom.UnitReduced : Atom → Prop
  /-- Symbols have no imaginary unit in them. -/
  | symbol (id : Nat) : Atom.UnitReduced (.symbol id)
  /-- Nor has the circle number. -/
  | pi : Atom.UnitReduced .pi
  /-- Nor has Euler's number. -/
  | e : Atom.UnitReduced .e
  /-- The imaginary unit itself. -/
  | imaginaryUnit : Atom.UnitReduced .imaginaryUnit
  /-- Roots have no imaginary unit in them. -/
  | root (q : Rat) (n : Nat) : Atom.UnitReduced (.root q n)
  /-- Radicands may be multiplied out. -/
  | radical {f : Form} {n : Nat} (hf : Form.UnitReduced f) : Atom.UnitReduced (.radical f n)
  /-- Functions are never multiplied out. -/
  | apply (g : Builtin) (args : List Form) : Atom.UnitReduced (.apply g args)
  /-- Powers are never multiplied out. -/
  | power (f g : Form) : Atom.UnitReduced (.power f g)
  /-- The sum in a reciprocal may be multiplied out. -/
  | reciprocal {f : Form} (hf : Form.UnitReduced f) : Atom.UnitReduced (.reciprocal f)

/-- The imaginary unit occurs in a product once at most and with exponent one, and so it does in
radicands and under reciprocals. -/
inductive Form.UnitReduced : Form → Prop
  /-- No atom occurs twice, and the imaginary unit has the exponent one. -/
  | intro {f : Form} (hne : ∀ t ∈ f.terms, t.1.factors.Pairwise fun x y => x.1 ≠ y.1)
      (hone : ∀ t ∈ f.terms, ∀ x ∈ t.1.factors, x.1 = .imaginaryUnit → x.2 = 1)
      (hatoms : ∀ t ∈ f.terms, ∀ x ∈ t.1.factors, Atom.UnitReduced x.1) : Form.UnitReduced f

end

/-- The imaginary unit occurs in the monomial once at most and with exponent one. -/
structure Monomial.UnitReduced (m : Monomial) : Prop where
  /-- No atom occurs twice. -/
  distinct : m.factors.Pairwise fun x y => x.1 ≠ y.1
  /-- The imaginary unit has the exponent one. -/
  exponent : ∀ x ∈ m.factors, x.1 = .imaginaryUnit → x.2 = 1
  /-- It is reduced in the atoms, too. -/
  atoms : ∀ x ∈ m.factors, x.1.UnitReduced

theorem Monomial.UnitReduced.without {m : Monomial} (h : m.UnitReduced) (a : Atom) :
    (m.without a).UnitReduced := by
  have hmem : ∀ x ∈ (m.without a).factors, x ∈ m.factors := fun x hx => (List.mem_filter.1 hx).1
  exact ⟨h.distinct.filter _, fun x hx => h.exponent x (hmem x hx),
    fun x hx => h.atoms x (hmem x hx)⟩

/-- A monomial without repetitions is the power of an atom times what is left without the atom. -/
theorem Monomial.value_without {K : Type*} [Field K] (v : Atom → K) {m : Monomial}
    (h : m.factors.Pairwise fun x y => x.1 ≠ y.1) (a : Atom) :
    m.value v = v a ^ m.exponentOf a * (m.without a).value v := by
  obtain ⟨factors⟩ := m
  simp only [exponentOf, without, value]
  induction factors with
  | nil => simp [factorsValue_nil]
  | cons x factors ih =>
    obtain ⟨b, k⟩ := x
    obtain ⟨hb, htail⟩ := List.pairwise_cons.1 h
    by_cases hab : b = a
    · subst hab
      -- the atom does not occur again
      have hfilter : factors.filter (fun y => !decide (y.1 = b)) = factors :=
        List.filter_eq_self.2 fun y hy => by simpa using (hb y hy).symm
      simp [factorsValue_cons, hfilter]
    · have ih := ih htail
      simp only [List.find?_cons, List.filter_cons, hab, decide_false, factorsValue_cons,
        not_false_eq_true, decide_true, if_true, ne_eq] at ih ⊢
      rw [ih]
      ring

namespace Form

variable {f g : Form}

theorem unitReduced_iff : f.UnitReduced ↔ f.MonomialsIn Monomial.UnitReduced := by
  constructor
  · rintro ⟨hne, hone, hatoms⟩ t ht
    exact ⟨hne t ht, hone t ht, hatoms t ht⟩
  · exact fun h => ⟨fun t ht => (h t ht).distinct, fun t ht => (h t ht).exponent,
      fun t ht => (h t ht).atoms⟩

theorem exponent_of_mem_kept {power : Form → Int → Option Form} {factors : List (Atom × Int)}
    {x : Atom × Int} (hx : x ∈ (shares power factors).flatMap Share.kept)
    (hunit : x.1 = .imaginaryUnit) : x.2 = 1 := by
  rcases exists_of_mem_kept hx with ⟨⟨a, k⟩, -, hx⟩ | ⟨n, -, hx⟩
  · obtain rfl : a = .imaginaryUnit := (atom_of_mem_kept_share hx).symm.trans hunit
    simp only [share, unitShare] at hx
    split at hx
    · rw [List.mem_singleton.1 hx]
    · cases hx
  · rw [(eq_of_mem_kept_rootShare hx).1] at hunit
    cases hunit

/-- Normalisation keeps the imaginary unit reduced. -/
theorem closed_unitReduced : Monomial.Closed Atom.UnitReduced Monomial.UnitReduced where
  one := ⟨List.Pairwise.nil, nofun, nofun⟩
  atoms := fun h => h.atoms
  kept := by
    intro power factors h
    have hsorted := Monomial.sorted_collectFactors factors
    have hmem : ∀ x ∈ Monomial.collectFactors
        ((shares power (Monomial.collectFactors factors)).flatMap Share.kept),
        x ∈ (shares power (Monomial.collectFactors factors)).flatMap Share.kept := fun x hx =>
      ((Monomial.mem_collectFactors_of_pairwise (pairwise_kept power hsorted)).1 hx).2
    exact ⟨(Monomial.sorted_collectFactors _).pairwise_ne,
      fun x hx => exponent_of_mem_kept (hmem x hx),
      fun x hx => forall_kept .root (Monomial.forall_collectFactors h) x (hmem x hx)⟩
  radicand := by
    intro f n h
    cases h with
    | radical hf => exact unitReduced_iff.1 hf
  reciprocal := by
    intro f
    constructor
    · intro h
      cases h with
      | reciprocal hf => exact unitReduced_iff.1 hf
    · exact fun h => .reciprocal (unitReduced_iff.2 h)

theorem unitReduced_ofRat (q : Rat) : (ofRat q).UnitReduced :=
  unitReduced_iff.2 (monomialsIn_ofRat closed_unitReduced.one q)

theorem unitReduced_ofFactors (c : Rat) {factors : List (Atom × Int)}
    (h : ∀ x ∈ factors, x.1.UnitReduced) : (ofFactors c factors).UnitReduced :=
  unitReduced_iff.2 (monomialsIn_ofFactors closed_unitReduced c h)

theorem unitReduced_ofAtom {a : Atom} (h : a.UnitReduced) : (ofAtom a).UnitReduced :=
  unitReduced_iff.2 (monomialsIn_ofAtom closed_unitReduced h)

namespace UnitReduced

theorem neg (h : f.UnitReduced) : f.neg.UnitReduced :=
  unitReduced_iff.2 (unitReduced_iff.1 h).neg

theorem scale (h : f.UnitReduced) (k : Rat) : (f.scale k).UnitReduced :=
  unitReduced_iff.2 ((unitReduced_iff.1 h).scale k)

theorem add (hf : f.UnitReduced) (hg : g.UnitReduced) : (f.add g).UnitReduced :=
  unitReduced_iff.2 ((unitReduced_iff.1 hf).add (unitReduced_iff.1 hg))

theorem sub (hf : f.UnitReduced) (hg : g.UnitReduced) : (f.sub g).UnitReduced := hf.add hg.neg

theorem mul (hf : f.UnitReduced) (hg : g.UnitReduced) : (f.mul g).UnitReduced :=
  unitReduced_iff.2 ((unitReduced_iff.1 hf).mul closed_unitReduced (unitReduced_iff.1 hg))

theorem divide (hf : f.UnitReduced) (hg : g.UnitReduced) {q : Form} (hq : f.divide? g = some q) :
    q.UnitReduced :=
  unitReduced_iff.2 ((unitReduced_iff.1 hf).divide closed_unitReduced (unitReduced_iff.1 hg) hq)

end UnitReduced

end Form

mutual

/-- The imaginary unit is reduced in normal atoms. -/
theorem Atom.IsNormal.unitReduced : ∀ {a : Atom}, a.IsNormal → a.UnitReduced
  | _, .symbol id => .symbol id
  | _, .pi => .pi
  | _, .e => .e
  | _, .imaginaryUnit => .imaginaryUnit
  | _, .root _ _ _ _ _ => .root _ _
  | _, .radical hf _ _ _ => .radical (Form.IsNormal.unitReduced hf)
  | _, .apply g _ => .apply g _
  | _, .power _ _ => .power _ _
  | _, .reciprocal hf _ _ => .reciprocal (Form.IsNormal.unitReduced hf)

/-- The imaginary unit is reduced in normal forms. -/
theorem Form.IsNormal.unitReduced : ∀ {f : Form}, f.IsNormal → f.UnitReduced
  | _, .intro harranged hatoms => by
    refine .intro (fun t ht => (harranged.terms t ht).2.sorted.pairwise_ne) (fun t ht x hx hunit => ?_)
      fun t ht x hx => Atom.IsNormal.unitReduced (hatoms t ht x hx)
    obtain ⟨a, k⟩ := x
    subst hunit
    exact (harranged.terms t ht).2.exponents _ hx

end

namespace Form

variable {f : Form}

/-! ### Real and imaginary part -/

variable {K : Type*} [Field K] (v : Atom → K)

theorem exponentOf_of_unitReduced {m : Monomial} (h : m.UnitReduced) :
    m.exponentOf .imaginaryUnit = 0 ∨ m.exponentOf .imaginaryUnit = 1 := by
  unfold Monomial.exponentOf
  split
  · next x k hfind =>
    have hunit := List.find?_some hfind
    exact .inr (h.exponent _ (List.mem_of_find?_eq_some hfind) (by simpa using hunit))
  · exact .inl rfl

/-- The form is its real part plus the imaginary unit times its imaginary part. -/
theorem UnitReduced.value_split [CharZero K] (h : f.UnitReduced) :
    f.value v = f.realPart.value v + f.imaginaryPart.value v * v .imaginaryUnit := by
  have hterms := unitReduced_iff.1 h
  obtain ⟨terms⟩ := f
  rw [imaginaryPart, value_sumAll, realPart, value, value]
  dsimp only
  induction terms with
  | nil => simp [termsValue_nil]
  | cons t terms ih =>
    have ht := hterms t List.mem_cons_self
    have ih := ih (unitReduced_iff.2 fun s hs => hterms s (List.mem_cons_of_mem _ hs))
      fun s hs => hterms s (List.mem_cons_of_mem _ hs)
    have hvalue := Monomial.value_without v ht.distinct .imaginaryUnit
    rw [termsValue_cons, ih]
    rcases exponentOf_of_unitReduced ht with hzero | hone
    · simp only [List.filter_cons, hzero, bne_self_eq_false, Bool.false_eq_true, if_false,
        beq_self_eq_true, if_true, termsValue_cons]
      ring
    · have hne : (t.1.exponentOf .imaginaryUnit == 0) = false := by rw [hone]; rfl
      have hne' : (t.1.exponentOf .imaginaryUnit != 0) = true := by rw [hone]; rfl
      rw [hone, zpow_one] at hvalue
      simp only [List.filter_cons, hne, hne', Bool.false_eq_true, if_false, if_true, List.map_cons,
        List.sum_cons, value_ofTerm, hvalue]
      ring

end Form

end Resolvent

import Resolvent.Proofs.Form.Made
import Resolvent.Proofs.Form.Radical

/-!
# Forms as they are stored

`Form.Constructible` are the forms that arithmetic and roots make of products of any atoms: atoms may
be radicals and roots with any index, functions of anything, and reciprocals.  What is made so is not
always in normal form, but it is stored as forms are (`Form.Constructible.stored`): no coefficient
and no exponent is zero, exponents are words of 32 bits, no atom occurs twice in a product, and the
imaginary unit has the exponent one.  The same holds of radicands and of the sums in reciprocals,
which may be multiplied out.  That, and whatever else normalisation establishes of all products, is
an instance of what holds of complete classes (`Form.Constructible.monomialsIn_of_complete`).
-/

namespace Resolvent

/-! ### Exponents of a product -/

mutual

/-- The forms that arithmetic takes out of the atom are stored as forms are. -/
inductive Atom.Stored : Atom → Prop
  /-- Symbols. -/
  | symbol (id : Nat) : Atom.Stored (.symbol id)
  /-- The circle number. -/
  | pi : Atom.Stored .pi
  /-- Euler's number. -/
  | e : Atom.Stored .e
  /-- The imaginary unit. -/
  | imaginaryUnit : Atom.Stored .imaginaryUnit
  /-- Roots. -/
  | root (q : Rat) (n : Nat) : Atom.Stored (.root q n)
  /-- Radicands may be multiplied out. -/
  | radical {f : Form} {n : Nat} (hf : Form.Stored f) : Atom.Stored (.radical f n)
  /-- Functions are never multiplied out. -/
  | apply (g : Builtin) (args : List Form) : Atom.Stored (.apply g args)
  /-- Powers are never multiplied out. -/
  | power (f g : Form) : Atom.Stored (.power f g)
  /-- The sum in a reciprocal may be multiplied out. -/
  | reciprocal {f : Form} (hf : Form.Stored f) : Atom.Stored (.reciprocal f)

/-- No atom occurs twice in a product, exponents are words of 32 bits other than zero, and that of
the imaginary unit is one. -/
inductive Form.Stored : Form → Prop
  /-- The conditions hold in each term and in its atoms. -/
  | intro {f : Form} (hne : ∀ t ∈ f.terms, t.1.factors.Pairwise fun x y => x.1 ≠ y.1)
      (hexponents : ∀ t ∈ f.terms, ∀ x ∈ t.1.factors, x.2 ≠ 0 ∧ Width.isInt32 x.2 = true)
      (hone : ∀ t ∈ f.terms, ∀ x ∈ t.1.factors, x.1 = .imaginaryUnit → x.2 = 1)
      (hatoms : ∀ t ∈ f.terms, ∀ x ∈ t.1.factors, Atom.Stored x.1) : Form.Stored f

end

/-- The conditions on a stored form for one of its monomials. -/
structure Monomial.Stored (m : Monomial) : Prop where
  /-- No atom occurs twice. -/
  distinct : m.factors.Pairwise fun x y => x.1 ≠ y.1
  /-- The exponents are words other than zero. -/
  exponent : ∀ x ∈ m.factors, x.2 ≠ 0 ∧ Width.isInt32 x.2 = true
  /-- The imaginary unit has the exponent one. -/
  unit : ∀ x ∈ m.factors, x.1 = .imaginaryUnit → x.2 = 1
  /-- The atoms are stored in this way, too. -/
  atoms : ∀ x ∈ m.factors, x.1.Stored

/-- What is left of a stored monomial without an atom is stored. -/
theorem Monomial.Stored.without {m : Monomial} (h : m.Stored) (a : Atom) : (m.without a).Stored := by
  have hmem : ∀ x ∈ (m.without a).factors, x ∈ m.factors := fun x hx => (List.mem_filter.1 hx).1
  exact ⟨h.distinct.filter _, fun x hx => h.exponent x (hmem x hx),
    fun x hx => h.unit x (hmem x hx), fun x hx => h.atoms x (hmem x hx)⟩

namespace Form

variable {f g : Form}

theorem stored_iff : f.Stored ↔ f.MonomialsIn Monomial.Stored := by
  constructor
  · rintro ⟨hne, hexponents, hone, hatoms⟩ t ht
    exact ⟨hne t ht, hexponents t ht, hone t ht, hatoms t ht⟩
  · exact fun h => ⟨fun t ht => (h t ht).distinct, fun t ht => (h t ht).exponent,
      fun t ht => (h t ht).unit, fun t ht => (h t ht).atoms⟩

end Form

mutual

/-- The imaginary unit is reduced in stored atoms. -/
theorem Atom.Stored.unitReduced : ∀ {a : Atom}, a.Stored → a.UnitReduced
  | _, .symbol id => .symbol id
  | _, .pi => .pi
  | _, .e => .e
  | _, .imaginaryUnit => .imaginaryUnit
  | _, .root q n => .root q n
  | _, .radical hf => .radical (Form.Stored.unitReduced hf)
  | _, .apply g args => .apply g args
  | _, .power f g => .power f g
  | _, .reciprocal hf => .reciprocal (Form.Stored.unitReduced hf)

/-- The imaginary unit is reduced in stored forms. -/
theorem Form.Stored.unitReduced : ∀ {f : Form}, f.Stored → f.UnitReduced
  | _, .intro hne _ hone hatoms =>
    .intro hne hone fun t ht x hx => Atom.Stored.unitReduced (hatoms t ht x hx)

end

namespace Form

variable {f g : Form}

/-! ### Normalisation -/

theorem isInt32_clamp32 (k : Int) : Width.isInt32 (Width.clamp32 k) = true := by
  unfold Width.clamp32
  split
  · rfl
  · split
    · rfl
    · simp only [Width.isInt32, decide_eq_true_eq]
      omega

/-- The exponents that normalisation leaves are words. -/
theorem isInt32_of_mem_kept {power : Form → Int → Option Form} {factors : List (Atom × Int)}
    {x : Atom × Int} (hx : x ∈ (shares power factors).flatMap Share.kept) :
    Width.isInt32 x.2 = true := by
  rcases exists_of_mem_kept hx with ⟨⟨a, k⟩, -, hx⟩ | ⟨n, -, hx⟩
  · cases a with
    | imaginaryUnit =>
      simp only [share, unitShare] at hx
      split at hx
      · rw [List.mem_singleton.1 hx]
        rfl
      · cases hx
    | root q n => cases hx
    | radical f n =>
      simp only [share, radicalShare] at hx
      split at hx
      · dsimp only at hx
        split at hx
        · cases hx
        · rw [List.mem_singleton.1 hx]
          exact isInt32_clamp32 _
      · rw [List.mem_singleton.1 hx]
        exact isInt32_clamp32 _
    | reciprocal f =>
      simp only [share, reciprocalShare] at hx
      split at hx
      · split at hx
        · cases hx
        · rw [List.mem_singleton.1 hx]
          exact isInt32_clamp32 _
      · rw [List.mem_singleton.1 hx]
        exact isInt32_clamp32 _
    | _ =>
      rw [List.mem_singleton.1 hx]
      exact isInt32_clamp32 _
  · rw [(eq_of_mem_kept_rootShare hx).1]
    rfl

/-- Normalisation stores products of stored atoms. -/
theorem closed_stored : Monomial.Closed Atom.Stored Monomial.Stored where
  one := ⟨List.Pairwise.nil, nofun, nofun, nofun⟩
  atoms := fun h => h.atoms
  kept := by
    intro power factors h
    have hsorted := Monomial.sorted_collectFactors factors
    have hmem : ∀ x ∈ Monomial.collectFactors
        ((shares power (Monomial.collectFactors factors)).flatMap Share.kept),
        x.2 ≠ 0 ∧ x ∈ (shares power (Monomial.collectFactors factors)).flatMap Share.kept :=
      fun x hx => (Monomial.mem_collectFactors_of_pairwise (pairwise_kept power hsorted)).1 hx
    exact ⟨(Monomial.sorted_collectFactors _).pairwise_ne,
      fun x hx => ⟨(hmem x hx).1, isInt32_of_mem_kept (hmem x hx).2⟩,
      fun x hx => exponent_of_mem_kept (hmem x hx).2,
      fun x hx => forall_kept .root (Monomial.forall_collectFactors h) x (hmem x hx).2⟩
  radicand := by
    intro f n h
    cases h with
    | radical hf => exact stored_iff.1 hf
  reciprocal := by
    intro f
    constructor
    · intro h
      cases h with
      | reciprocal hf => exact stored_iff.1 hf
    · exact fun h => .reciprocal (stored_iff.2 h)

end Form

/-! ### Coefficients -/

namespace Form

variable {f g : Form}

theorem noZeros_normalized (n : Nat) (f g : Form) : (mulWith (normalize n) f g).NoZeros :=
  noZeros_mulWith (noZeros_normalize n) f g

theorem noZeros_powNatWith (n : Nat) (h : f.NoZeros) (k : Nat) :
    (powNatWith (normalize n) f k).NoZeros :=
  powNatWith_of_closed (fun _ _ _ _ => noZeros_normalized n _ _) (over_ofRat trivial 1) h
    fun _ _ _ => noZeros_normalize n _ _

theorem noZeros_inverseWith (n : Nat) {budget : Nat}
    (hg : inverseWith (normalize n) budget f = some g) : g.NoZeros := by
  cases budget with
  | zero =>
    rw [inverseWith] at hg
    split at hg
    · cases hg
    · split at hg <;> cases hg <;> exact noZeros_normalize n _ _
  | succ budget =>
    rw [inverseWith] at hg
    split at hg
    · cases hg
    · split at hg
      · cases hg
        exact noZeros_normalize n _ _
      · split at hg
        · cases hg
          exact noZeros_normalize n _ _
        · split at hg <;> cases hg
          · exact noZeros_normalized n _ _
          · exact noZeros_normalize n _ _

theorem noZeros_pow? (h : f.NoZeros) {k : Int} (hg : f.pow? k = some g) : g.NoZeros := by
  rw [pow?, powWith] at hg
  split at hg
  · cases hg
  · split at hg
    · obtain ⟨i, hi, rfl⟩ := Option.map_eq_some_iff.1 hg
      exact noZeros_powNatWith _ (noZeros_inverseWith _ hi) _
    · cases hg
      exact noZeros_powNatWith _ h _

end Form

/-! ### Forms that operations make -/

mutual

/-- The atoms that forms are made of. -/
inductive Atom.Constructible : Atom → Prop
  /-- Symbols. -/
  | symbol (id : Nat) : Atom.Constructible (.symbol id)
  /-- The circle number. -/
  | pi : Atom.Constructible .pi
  /-- Euler's number. -/
  | e : Atom.Constructible .e
  /-- The imaginary unit. -/
  | imaginaryUnit : Atom.Constructible .imaginaryUnit
  /-- Roots of any number with any index. -/
  | root (q : Rat) (n : Nat) : Atom.Constructible (.root q n)
  /-- Radicals with any index. -/
  | radical {f : Form} (hf : Form.Constructible f) (n : Nat) : Atom.Constructible (.radical f n)
  /-- Functions. -/
  | apply (g : Builtin) {args : List Form} (hargs : ∀ f ∈ args, Form.Constructible f) :
      Atom.Constructible (.apply g args)
  /-- Powers. -/
  | power {f g : Form} (hf : Form.Constructible f) (hg : Form.Constructible g) :
      Atom.Constructible (.power f g)
  /-- Reciprocals. -/
  | reciprocal {f : Form} (hf : Form.Constructible f) : Atom.Constructible (.reciprocal f)

/-- **The forms that can be made**: products of atoms and numbers, and what arithmetic, real and
imaginary parts and conjugates make of forms. -/
inductive Form.Constructible : Form → Prop
  /-- Products of atoms with a number. -/
  | product (c : Rat) {factors : List (Atom × Int)}
      (h : ∀ x ∈ factors, Atom.Constructible x.1) : Form.Constructible (Form.ofFactors c factors)
  /-- Sums. -/
  | add {f g : Form} (hf : Form.Constructible f) (hg : Form.Constructible g) :
      Form.Constructible (f.add g)
  /-- Opposites. -/
  | neg {f : Form} (hf : Form.Constructible f) : Form.Constructible f.neg
  /-- Products. -/
  | mul {f g : Form} (hf : Form.Constructible f) (hg : Form.Constructible g) :
      Form.Constructible (f.mul g)
  /-- Multiples. -/
  | scale {f : Form} (hf : Form.Constructible f) (k : Rat) : Form.Constructible (f.scale k)
  /-- Powers. -/
  | pow {f g : Form} {k : Int} (hf : Form.Constructible f) (hg : f.pow? k = some g) :
      Form.Constructible g
  /-- Inverses. -/
  | inverse {f g : Form} (hf : Form.Constructible f) (hg : f.inverse? = some g) :
      Form.Constructible g
  /-- Real parts. -/
  | realPart {f : Form} (hf : Form.Constructible f) : Form.Constructible f.realPart
  /-- Imaginary parts. -/
  | imaginaryPart {f : Form} (hf : Form.Constructible f) : Form.Constructible f.imaginaryPart

end

/-- A closed class that asks nothing of an atom but what it is made of, and that monomials do not
leave without the imaginary unit. -/
structure Monomial.Complete (A : Atom → Prop) (P : Monomial → Prop) : Prop extends
    Monomial.Closed A P where
  /-- The class has the atoms that are made of its forms. -/
  atom : ∀ a : Atom, (∀ f ∈ a.operands, f.MonomialsIn P) → A a
  /-- The class has its monomials without the imaginary unit. -/
  without : ∀ m : Monomial, P m → P (m.without .imaginaryUnit)

mutual

/-- A complete class has the atoms that forms are made of. -/
theorem Atom.Constructible.of_complete {A : Atom → Prop} {P : Monomial → Prop}
    (hc : Monomial.Complete A P) : ∀ {a : Atom}, a.Constructible → A a
  | _, .symbol _ | _, .pi | _, .e | _, .imaginaryUnit | _, .root _ _ =>
      hc.atom _ (List.forall_mem_nil _)
  | _, .radical hf _ => hc.atom _ (List.forall_mem_singleton.2
      (Form.Constructible.monomialsIn_of_complete hc hf))
  | _, .apply _ hargs => hc.atom _ fun f hf =>
      Form.Constructible.monomialsIn_of_complete hc (hargs f hf)
  | _, .power hf hg => hc.atom _ (List.forall_mem_cons.2
      ⟨Form.Constructible.monomialsIn_of_complete hc hf,
        List.forall_mem_singleton.2 (Form.Constructible.monomialsIn_of_complete hc hg)⟩)
  | _, .reciprocal hf => hc.atom _ (List.forall_mem_singleton.2
      (Form.Constructible.monomialsIn_of_complete hc hf))

/-- A complete class has the forms that can be made. -/
theorem Form.Constructible.monomialsIn_of_complete {A : Atom → Prop} {P : Monomial → Prop}
    (hc : Monomial.Complete A P) : ∀ {f : Form}, f.Constructible → f.MonomialsIn P
  | _, .product c h => Form.monomialsIn_ofFactors hc.toClosed c fun x hx =>
      Atom.Constructible.of_complete hc (h x hx)
  | _, .add hf hg => (Form.Constructible.monomialsIn_of_complete hc hf).add
      (Form.Constructible.monomialsIn_of_complete hc hg)
  | _, .neg hf => (Form.Constructible.monomialsIn_of_complete hc hf).neg
  | _, .mul hf hg => (Form.Constructible.monomialsIn_of_complete hc hf).mul hc.toClosed
      (Form.Constructible.monomialsIn_of_complete hc hg)
  | _, .scale hf k => (Form.Constructible.monomialsIn_of_complete hc hf).scale k
  | _, .pow hf hg => (Form.Constructible.monomialsIn_of_complete hc hf).pow hc.toClosed hg
  | _, .inverse hf hg => (Form.Constructible.monomialsIn_of_complete hc hf).inverse hc.toClosed hg
  | _, .realPart hf => (Form.Constructible.monomialsIn_of_complete hc hf).realPart
  | _, .imaginaryPart hf =>
      (Form.Constructible.monomialsIn_of_complete hc hf).imaginaryPart hc.without

end

namespace Form

variable {f g : Form}

/-- A property of monomials that is kept holds throughout the forms of a complete class. -/
theorem complete_monomialsThroughout {Q : Monomial → Prop} (hone : Q Monomial.one)
    (hkept : ∀ (power : Form → Int → Option Form) (factors : List (Atom × Int)),
      Q ⟨Monomial.collectFactors
        ((shares power (Monomial.collectFactors factors)).flatMap Share.kept)⟩)
    (hwithout : ∀ m : Monomial, Q m → Q (m.without .imaginaryUnit)) :
    Monomial.Complete (Atom.MonomialsThroughout Q) (Monomial.Throughout Q) where
  toClosed := closed_monomialsThroughout hone hkept
  atom := fun _ ha => Atom.monomialsThroughout_iff.2 fun f hf =>
    monomialsThroughout_iff.2 (ha f hf)
  without := fun m hm => ⟨hwithout m hm.1, fun x hx => hm.2 x (List.mem_filter.1 hx).1⟩

theorem complete_stored : Monomial.Complete Atom.Stored Monomial.Stored where
  toClosed := closed_stored
  atom := by
    intro a ha
    cases a with
    | radical f n => exact .radical (stored_iff.2 (ha f (List.mem_singleton_self f)))
    | reciprocal f => exact .reciprocal (stored_iff.2 (ha f (List.mem_singleton_self f)))
    | symbol id => exact .symbol id
    | pi => exact .pi
    | e => exact .e
    | imaginaryUnit => exact .imaginaryUnit
    | root q n => exact .root q n
    | apply g args => exact .apply g args
    | power f g => exact .power f g
  without := fun _ hm => hm.without _

namespace Constructible

/-- The monomials of forms that can be made are stored ones. -/
theorem monomialsIn (h : f.Constructible) : f.MonomialsIn Monomial.Stored :=
  h.monomialsIn_of_complete complete_stored

/-- **How forms are stored**: the exponents in a form that can be made are words other than zero, no
atom occurs twice in a product, and the imaginary unit has the exponent one. -/
theorem stored (h : f.Constructible) : f.Stored := stored_iff.2 h.monomialsIn

/-- No coefficient of a form that can be made is zero. -/
theorem noZeros : ∀ {f : Form}, f.Constructible → f.NoZeros
  | _, .product _ _ => noZeros_normalize _ _ _
  | _, .add hf hg => Over.add (noZeros hf) (noZeros hg)
  | _, .neg hf => Over.neg (noZeros hf)
  | _, .mul _ _ => noZeros_normalized _ _ _
  | _, .scale hf k => Over.scale (noZeros hf) k
  | _, .pow hf hg => noZeros_pow? (noZeros hf) hg
  | _, .inverse _ hg => noZeros_inverseWith _ hg
  | _, .realPart hf => Over.realPart (noZeros hf)
  | _, .imaginaryPart hf => Over.imaginaryPart (noZeros hf) fun _ _ => trivial

theorem ofRat (q : Rat) : (Form.ofRat q).Constructible := by
  rw [← normalize_nil (unfoldings (Monomial.depthFactors [])) q]
  exact .product q (List.forall_mem_nil _)

theorem ofAtom {a : Atom} (h : a.Constructible) : (Form.ofAtom a).Constructible :=
  .product 1 fun x hx => by rwa [List.mem_singleton.1 hx]

theorem imaginaryUnit : Form.imaginaryUnit.Constructible := ofAtom .imaginaryUnit

theorem sub (hf : f.Constructible) (hg : g.Constructible) : (f.sub g).Constructible :=
  hf.add hg.neg

theorem divide (hf : f.Constructible) (hg : g.Constructible) {q : Form}
    (hq : f.divide? g = some q) : q.Constructible := by
  obtain ⟨i, hi, rfl⟩ := Option.map_eq_some_iff.1 hq
  exact hf.mul (hg.inverse hi)

theorem parts {re im : Form} (hf : f.Constructible) (h : f.splitComplex? = some (re, im)) :
    re.Constructible ∧ im.Constructible := by
  unfold splitComplex? at h
  split at h
  · obtain ⟨rfl, rfl⟩ := Prod.mk.inj (Option.some.inj h)
    exact ⟨hf.realPart, hf.imaginaryPart⟩
  · cases h

theorem conjugate (hf : f.Constructible) (h : f.conjugate? = some g) : g.Constructible := by
  obtain ⟨⟨re, im⟩, hsplit, rfl⟩ := Option.map_eq_some_iff.1 h
  obtain ⟨hre, him⟩ := hf.parts hsplit
  exact hre.sub (him.mul imaginaryUnit)

/-! ### Roots -/

theorem radical (hf : f.Constructible) (n : Nat) : (Form.radical f n).Constructible :=
  ofAtom (.radical hf n)

theorem positiveRoot (q : Rat) (n : Nat) : (Form.positiveRoot q n).Constructible := by
  unfold Form.positiveRoot
  split
  · dsimp only
    split
    · exact ofRat _
    · exact .product _ fun x hx => by
        rw [List.mem_singleton.1 hx]
        exact .root _ _
  · exact (ofRat q).radical n

theorem sixthTurn : Form.sixthTurn.Constructible :=
  .scale (.add (ofRat 1) (.mul (positiveRoot 3 2) imaginaryUnit)) _

theorem rationalRoot {format : ComplexFormat} {q : Rat} {n : Nat}
    (h : Form.rationalRoot format q n = .ok g) : g.Constructible := by
  rw [Form.rationalRoot] at h
  split at h
  · cases h
    exact positiveRoot _ _
  · split at h
    · split at h
      · cases h
        exact (positiveRoot _ _).neg
      · cases h
    · split at h
      · cases h
        exact (positiveRoot _ _).mul imaginaryUnit
      · split at h
        · cases h
          exact (positiveRoot _ _).mul sixthTurn
        · cases h
          exact (ofRat q).radical n

theorem squareRootOfSum {a b : Rat} (h : squareRootOfSum? a b = some g) : g.Constructible := by
  rw [squareRootOfSum?] at h
  split at h
  · cases h
  · cases h
    refine .add (positiveRoot _ _) (.mul ?_ imaginaryUnit)
    split
    · exact (positiveRoot _ _).neg
    · exact positiveRoot _ _

theorem otherRoot (hf : f.Constructible) {p : Preferences} {n : Nat}
    (h : Form.otherRoot p f n = .ok g) : g.Constructible := by
  rw [Form.otherRoot] at h
  split at h
  · next q factors hpower =>
    obtain ⟨r, hr, rfl⟩ := Except.map_eq_ok_iff.1 h
    refine (rationalRoot hr).mul (.product 1 fun x hx => ?_)
    obtain ⟨m, -, rfl, hconstants⟩ := constantPower?_eq_some hpower
    obtain ⟨⟨a, k⟩, hy, rfl⟩ := List.mem_map.1 hx
    rcases (hconstants _ hy).1 with rfl | rfl
    · exact .pi
    · exact .e
  · rcases generalRoot_cases h with rfl | ⟨-, rfl, -⟩
    · exact hf.radical n
    · exact (hf.neg.radical n).mul imaginaryUnit

/-- Roots of forms that can be made can be made. -/
theorem root (hf : f.Constructible) {p : Preferences} {n : Nat} (h : Form.root p f n = .ok g) :
    g.Constructible := by
  rw [Form.root] at h
  split at h
  · cases h
    exact hf
  · split at h
    · exact rationalRoot h
    · rw [irrationalRoot] at h
      split at h
      · exact hf.otherRoot h
      · split at h
        · cases h
        · split at h
          · next hs =>
            cases h
            exact squareRootOfSum hs
          · exact hf.otherRoot h

end Constructible

/-- The form of an expression can be made. -/
theorem Made.constructible {p : Preferences} {S : Nat → Prop} (h : f.Made p S) :
    f.Constructible := by
  induction h with
  | rational q => exact .ofRat q
  | constants c h =>
    refine .product c fun x hx => ?_
    obtain ⟨a, k⟩ := x
    cases a with
    | pi => exact .pi
    | e => exact .e
    | imaginaryUnit => exact .imaginaryUnit
    | _ => exact (h _ hx).elim
  | symbol _ => exact .ofAtom (.symbol _)
  | root _ _ => exact .ofAtom (.root _ _)
  | radical _ _ _ _ _ ih => exact ih.radical _
  | apply _ _ ih => exact .ofAtom (.apply _ ih)
  | power _ _ _ ihf ihg => exact .ofAtom (.power ihf ihg)
  | add _ _ ihf ihg => exact ihf.add ihg
  | neg _ ih => exact ih.neg
  | scale _ k ih => exact ih.scale k
  | mul _ _ ihf ihg => exact ihf.mul ihg
  | pow _ hg ih => exact ih.pow hg
  | inverse _ hg ih => exact ih.inverse hg
  | realPart _ ih => exact ih.realPart
  | imaginaryPart _ ih => exact ih.imaginaryPart

end Form

end Resolvent

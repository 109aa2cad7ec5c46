import Resolvent.Proofs.Form.Unfolding

/-!
# Forms that can be built

`Form.Reachable` are the forms that arithmetic makes of rational numbers and atoms.  They are all in
normal form (`Form.isNormal_of_reachable`), as each operation takes normal forms to normal ones: the
depth of its operands is a bound for what it unfolds, and `unfoldings` grants more than that.
-/

namespace Resolvent

/-- The atoms that forms are built from. -/
inductive Atom.Buildable : Atom → Prop
  /-- Symbols. -/
  | symbol (id : Nat) : Atom.Buildable (.symbol id)
  /-- The circle number. -/
  | pi : Atom.Buildable .pi
  /-- Euler's number. -/
  | e : Atom.Buildable .e
  /-- The imaginary unit. -/
  | imaginaryUnit : Atom.Buildable .imaginaryUnit
  /-- Roots of positive numbers. -/
  | root {q : Rat} {n : Nat} (hq : 0 < q) (hlow : 2 ≤ n) (hhigh : n ≤ 64) :
      Atom.Buildable (.root q n)
  /-- Radicals of normal forms other than zero. -/
  | radical {f : Form} {n : Nat} (hf : f.IsNormal) (hne : f ≠ Form.zero) (hlow : 2 ≤ n)
      (hhigh : n ≤ 64) : Atom.Buildable (.radical f n)
  /-- Functions of normal forms. -/
  | apply (g : Builtin) {args : List Form} (hargs : ∀ f ∈ args, f.IsNormal) :
      Atom.Buildable (.apply g args)
  /-- Powers of normal forms. -/
  | power {f g : Form} (hf : f.IsNormal) (hg : g.IsNormal) : Atom.Buildable (.power f g)

/-- The forms that arithmetic makes of rational numbers and atoms. -/
inductive Form.Reachable : Form → Prop
  /-- Rational numbers. -/
  | rational (q : Rat) : Reachable (ofRat q)
  /-- Atoms. -/
  | atom {a : Atom} (ha : a.Buildable) : Reachable (ofAtom a)
  /-- Sums. -/
  | add {f g : Form} (hf : Reachable f) (hg : Reachable g) : Reachable (f.add g)
  /-- Opposites. -/
  | neg {f : Form} (hf : Reachable f) : Reachable f.neg
  /-- Differences. -/
  | sub {f g : Form} (hf : Reachable f) (hg : Reachable g) : Reachable (f.sub g)
  /-- Products. -/
  | mul {f g : Form} (hf : Reachable f) (hg : Reachable g) : Reachable (f.mul g)
  /-- Multiples. -/
  | scale {f : Form} (hf : Reachable f) (k : Rat) : Reachable (f.scale k)
  /-- Powers. -/
  | pow {f g : Form} {k : Int} (hf : Reachable f) (hg : f.pow? k = some g) : Reachable g
  /-- Inverses. -/
  | inverse {f g : Form} (hf : Reachable f) (hg : f.inverse? = some g) : Reachable g
  /-- Quotients. -/
  | divide {f g h : Form} (hf : Reachable f) (hg : Reachable g) (hh : f.divide? g = some h) :
      Reachable h
  /-- Real parts. -/
  | realPart {f re im : Form} (hf : Reachable f) (hsplit : f.splitComplex? = some (re, im)) :
      Reachable re
  /-- Imaginary parts. -/
  | imaginaryPart {f re im : Form} (hf : Reachable f)
      (hsplit : f.splitComplex? = some (re, im)) : Reachable im
  /-- Complex conjugates. -/
  | conjugate {f g : Form} (hf : Reachable f) (hg : f.conjugate? = some g) : Reachable g

theorem Atom.Buildable.proper {a : Atom} (h : a.Buildable) : a.Proper := by
  cases h with
  | symbol id => exact .symbol id
  | pi => exact .pi
  | e => exact .e
  | imaginaryUnit => exact .imaginaryUnit
  | root hq hlow hhigh => exact ⟨hq, hlow, hhigh⟩
  | radical hf hne hlow hhigh => exact .radical hf hne hlow hhigh
  | apply g hargs => exact .apply g hargs
  | power hf hg => exact .power hf hg

namespace Form

variable {f g : Form}

/-! ### Operations on normal forms -/

theorem isNormal_ofAtom {a : Atom} (h : a.Proper) : (ofAtom a).IsNormal := by
  -- the exponent one is below any index, so nothing is multiplied out
  have hunit : ∀ {f : Form} {n : Nat}, a = .radical f n → (1 : Int) / n = 0 := by
    rintro f n rfl
    have := two_le_of_proper h
    exact Int.ediv_eq_zero_of_lt (by omega) (by omega)
  refine isNormal_of_over (sorted_normalize _ _ _)
    (settledAt _ (d := a.depth) ⟨?_, ?_, fun hx => ?_⟩ (fun x hx => ?_) 1)
  · intro x hx
    rw [List.mem_singleton.1 hx]
    exact h
  · intro x hx
    rw [List.mem_singleton.1 hx]
  · obtain ⟨ha, rfl⟩ := Prod.mk.inj (Monomial.eq_of_mem_collectFactors_singleton hx)
    rw [hunit ha.symm]
    exact ⟨le_rfl, Int.natCast_nonneg _⟩
  · rw [Monomial.eq_of_mem_collectFactors_singleton hx]
    left
    cases a with
    | radical f n => exact hunit rfl
    | reciprocal f => exact fun hneg => absurd hneg (by decide)
    | _ => trivial

theorem lt_unfoldings (d : Nat) : d < unfoldings d := by
  unfold unfoldings
  omega

theorem IsNormal.mul (hf : f.IsNormal) (hg : g.IsNormal) : (f.mul g).IsNormal :=
  isNormal_of_over (sorted_mulWith (sorted_normalize _) f g)
    ((settledAt _).mulWith (d := f.depth + g.depth) (lt_unfoldings _).le
      (hf.over (Nat.le_add_right _ _)) (hg.over (Nat.le_add_left _ _)))

theorem over_inverseWith_of_eq_some {n budget : Nat} (hf : f.IsNormal) (hn : f.depth + 1 ≤ n)
    (hg : inverseWith (normalize n) budget f = some g) :
    g.Over (Monomial.Normal (f.depth + 1)) := by
  have hne : f ≠ zero := by
    rintro rfl
    rw [inverseWith_zero] at hg
    cases hg
  obtain ⟨i, hi, hover⟩ := exists_inverseWith hn budget hf le_rfl hne
  rw [hi] at hg
  exact Option.some.inj hg ▸ hover

theorem IsNormal.inverse (hf : f.IsNormal) (hg : f.inverse? = some g) : g.IsNormal :=
  isNormal_of_over (sorted_inverseWith (sorted_normalize _) hg)
    (over_inverseWith_of_eq_some hf (lt_unfoldings _) hg)

theorem IsNormal.pow {k : Int} (hf : f.IsNormal) (hg : f.pow? k = some g) : g.IsNormal := by
  have hsorted := sorted_powWith (sorted_normalize _) hf.sorted hg
  rw [pow?, powWith] at hg
  split at hg
  · cases hg
  · next hsmall =>
    split at hg
    · obtain ⟨i, hi, rfl⟩ := Option.map_eq_some_iff.1 hg
      have hover := over_inverseWith_of_eq_some hf (lt_unfoldings _) hi
      exact isNormal_of_over hsorted
        ((settledAt _).powNatWith (lt_unfoldings _) hover (not_lt.1 hsmall))
    · cases hg
      exact isNormal_of_over hsorted
        ((settledAt _).powNatWith (lt_unfoldings _).le (hf.over le_rfl) (not_lt.1 hsmall))

theorem IsNormal.divide {h : Form} (hf : f.IsNormal) (hg : g.IsNormal)
    (hh : f.divide? g = some h) : h.IsNormal := by
  obtain ⟨i, hi, rfl⟩ := Option.map_eq_some_iff.1 hh
  exact hf.mul (hg.inverse hi)

theorem IsNormal.parts {re im : Form} (hf : f.IsNormal) (hsplit : f.splitComplex? = some (re, im)) :
    re.IsNormal ∧ im.IsNormal := by
  unfold splitComplex? at hsplit
  split at hsplit
  · obtain ⟨rfl, rfl⟩ := Prod.mk.inj (Option.some.inj hsplit)
    exact ⟨hf.realPart, hf.imaginaryPart⟩
  · cases hsplit

theorem IsNormal.complexConjugate (hf : f.IsNormal) (hg : f.conjugate? = some g) : g.IsNormal := by
  obtain ⟨⟨re, im⟩, hsplit, rfl⟩ := Option.map_eq_some_iff.1 hg
  obtain ⟨hre, him⟩ := hf.parts hsplit
  exact hre.sub (him.mul (isNormal_ofAtom Atom.IsNormal.imaginaryUnit))

/-- **Normal form**: whatever arithmetic makes of rational numbers and atoms is in normal form. -/
theorem isNormal_of_reachable (h : f.Reachable) : f.IsNormal := by
  induction h with
  | rational q => exact isNormal_ofRat q
  | atom ha => exact isNormal_ofAtom ha.proper
  | add _ _ hf hg => exact hf.add hg
  | neg _ hf => exact hf.neg
  | sub _ _ hf hg => exact hf.sub hg
  | mul _ _ hf hg => exact hf.mul hg
  | scale _ k hf => exact hf.scale k
  | pow _ hg hf => exact hf.pow hg
  | inverse _ hg hf => exact hf.inverse hg
  | divide _ _ hh hf hg => exact hf.divide hg hh
  | realPart _ hsplit hf => exact (hf.parts hsplit).1
  | imaginaryPart _ hsplit hf => exact (hf.parts hsplit).2
  | conjugate _ hg hf => exact hf.complexConjugate hg

/-- The square of one plus the root of a symbol. -/
theorem isNormal_square_one_add_radical :
    let f := add one (ofAtom (.radical (symbol 0) 2))
    (mul f f).Reachable ∧ (mul f f).IsNormal := by
  have hroot : (ofAtom (.radical (symbol 0) 2)).Reachable :=
    .atom (.radical (isNormal_of_reachable (.atom (.symbol 0))) (by decide +kernel) le_rfl
      (by decide))
  have hsum := Reachable.add (.rational 1) hroot
  exact ⟨hsum.mul hsum, isNormal_of_reachable (hsum.mul hsum)⟩

end Form

end Resolvent

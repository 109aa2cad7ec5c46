import Resolvent.Form.Radical
import Resolvent.Proofs.Form.Radical
import Resolvent.Proofs.Form.Terms
import Resolvent.Proofs.Numeric.Opposites

/-!
# Roots without a simpler value

`Form.NoExactRoot` says that no rule for exact roots applies to a form, so that its root is decided
by its approximate value (`Form.NoExactRoot.root_eq`).  The same then holds of its opposite, and a
square root that is taken of the opposite has no simpler value itself
(`Form.NoExactRoot.root_neg`): the approximate values of opposites are opposite, so they are not both
negative.
-/

namespace Resolvent.Form

variable {f g : Form}

/-! ### Opposites -/

/-- The term with the opposite coefficient. -/
def negTerm (t : Monomial × Rat) : Monomial × Rat := (t.1, -t.2)

theorem mergeTerm_neg (m : Monomial) (q : Rat)
    {rest rest' : List (Monomial × Rat) → List (Monomial × Rat)}
    (h : ∀ ys, rest' (ys.map negTerm) = (rest ys).map negTerm) (ys : List (Monomial × Rat)) :
    mergeTerm m (-q) rest' (ys.map negTerm) = (mergeTerm m q rest ys).map negTerm := by
  induction ys with
  | nil =>
    rw [List.map_nil, mergeTerm, mergeTerm, List.map_cons, ← h]
    rfl
  | cons y ys ih =>
    obtain ⟨n, r⟩ := y
    have hsum : -q + -r = 0 ↔ q + r = 0 := by rw [← neg_add, neg_eq_zero]
    rw [List.map_cons, negTerm, mergeTerm, mergeTerm]
    dsimp only
    rcases m.order n with - | - | -
    · exact congrArg _ (h ((n, r) :: ys))
    · dsimp only
      by_cases hzero : q + r = 0
      · rw [if_pos hzero, if_pos (hsum.2 hzero), h]
      · rw [if_neg hzero, if_neg (hsum.not.2 hzero), h, ← neg_add]
        rfl
    · exact congrArg _ ih

theorem neg_add_eq (f g : Form) : neg (add f g) = add (neg f) (neg g) := by
  obtain ⟨xs⟩ := f
  obtain ⟨ys⟩ := g
  refine congrArg mk (Eq.symm ?_)
  change mergeTerms (xs.map negTerm) (ys.map negTerm) = (mergeTerms xs ys).map negTerm
  induction xs generalizing ys with
  | nil => rfl
  | cons x xs ih => exact mergeTerm_neg x.1 x.2 ih ys

theorem addPairs_neg (fs : List Form) : addPairs (fs.map neg) = (addPairs fs).map neg := by
  fun_induction addPairs fs with
  | case1 f g rest ih =>
    rw [List.map_cons, List.map_cons, addPairs, ih, List.map_cons, neg_add_eq]
  | case2 fs h =>
    match fs, h with
    | [], _ | [_], _ => rfl
    | f :: g :: rest, h => exact absurd rfl (h f g rest)

theorem foldl_add_neg (fs : List Form) (f : Form) :
    (fs.map neg).foldl add (neg f) = neg (fs.foldl add f) := by
  induction fs generalizing f with
  | nil => rfl
  | cons g fs ih => rw [List.map_cons, List.foldl_cons, ← neg_add_eq, ih, List.foldl_cons]

theorem sumLoop_neg (fuel : Nat) (fs : List Form) :
    sumLoop fuel (fs.map neg) = neg (sumLoop fuel fs) := by
  induction fuel generalizing fs with
  | zero =>
    match fs with
    | [] | [_] => rfl
    | f :: g :: fs => exact foldl_add_neg (f :: g :: fs) zero
  | succ fuel ih =>
    match fs with
    | [] | [_] => rfl
    | f :: g :: fs =>
      refine Eq.trans ?_ (ih (addPairs (f :: g :: fs)))
      rw [← addPairs_neg]
      rfl

theorem sumAll_neg (fs : List Form) : sumAll (fs.map neg) = neg (sumAll fs) := by
  rw [sumAll, List.length_map, sumLoop_neg]
  rfl

theorem realPart_neg (f : Form) : (neg f).realPart = neg f.realPart := by
  rw [realPart, realPart, neg, neg, List.filter_map]
  rfl

theorem imaginaryPart_neg (f : Form) : (neg f).imaginaryPart = neg f.imaginaryPart := by
  rw [imaginaryPart, imaginaryPart, ← sumAll_neg, List.map_map, neg, List.filter_map, List.map_map]
  exact congrArg sumAll (List.map_congr_left fun t _ => (neg_ofTerm _ _).symm)

theorem toRat?_neg (f : Form) : (neg f).toRat? = f.toRat?.map fun q => -q := by
  obtain ⟨terms⟩ := f
  match terms with
  | [] => simp [neg, toRat?]
  | [(m, q)] => 
    simp only [neg, toRat?, List.map_cons, List.map_nil]
    split <;> rfl
  | _ :: _ :: _ => rfl

theorem splitComplex?_neg (f : Form) :
    (neg f).splitComplex? = f.splitComplex?.map fun x => (neg x.1, neg x.2) := by
  have hreal : ∀ g : Form, (neg g).isKnownReal = g.isKnownReal := by
    rintro ⟨terms⟩
    rw [neg, isKnownReal, isKnownReal]
    induction terms with
    | nil => rfl
    | cons t terms ih => rw [List.map_cons, areTermsKnownReal, areTermsKnownReal, ih]
  unfold splitComplex?
  rw [realPart_neg, imaginaryPart_neg, hreal, hreal]
  split <;> rfl

theorem gaussianParts?_neg (f : Form) :
    (neg f).gaussianParts? = f.gaussianParts?.map fun x => (-x.1, -x.2) := by
  unfold gaussianParts?
  rw [splitComplex?_neg]
  rcases f.splitComplex? with - | ⟨re, im⟩
  · rfl
  · dsimp only [Option.map_some]
    rw [toRat?_neg, toRat?_neg]
    rcases re.toRat? with - | a <;> rcases im.toRat? with - | b <;> try rfl
    dsimp only [Option.map_some]
    by_cases hb : b = 0
    · rw [if_pos hb, if_pos (neg_eq_zero.2 hb)]
      rfl
    · rw [if_neg hb, if_neg (neg_ne_zero.2 hb)]
      rfl

theorem squareRootOfSum?_neg {a b : Rat} (h : squareRootOfSum? a b = none) :
    squareRootOfSum? (-a) (-b) = none := by
  unfold squareRootOfSum? at h ⊢
  rw [neg_mul_neg, neg_mul_neg]
  generalize (positiveRoot (a * a + b * b) 2).toRat? = modulus at h ⊢
  cases modulus with
  | none => rfl
  | some modulus => cases h

theorem constantPower?_neg (f : Form) (n : Nat) :
    (neg f).constantPower? n = (f.constantPower? n).map fun x => (-x.1, x.2) := by
  obtain ⟨terms⟩ := f
  match terms with
  | [] | _ :: _ :: _ => rfl
  | [(m, q)] =>
    simp only [constantPower?, neg, singleTerm?, List.map_cons, List.map_nil]
    split <;> rfl

theorem isZero_neg (f : Form) : (neg f).isZero = f.isZero := by
  obtain ⟨terms⟩ := f
  cases terms <;> rfl

/-- A square root that is written with that of the opposite is taken of a form whose value is
negative; the value of the opposite is then not negative. -/
theorem generalRoot_neg {p : Preferences} {n : Nat} (h : generalRoot p f n = .ok g)
    (hne : g ≠ radical f n) :
    n = 2 ∧ g = mul (radical f.neg n) imaginaryUnit ∧
      generalRoot p f.neg n = .ok (radical f.neg n) := by
  have hopposes : (f.constantValue p.angleUnit).Opposes (f.neg.constantValue p.angleUnit) :=
    opposes_evaluate_neg f
  rw [generalRoot] at h
  dsimp only at h
  split at h
  · exact absurd (Except.ok.inj h).symm hne
  · split at h
    · next hnegative =>
      obtain ⟨⟨-, hnegative⟩, -⟩ := by simpa using hnegative
      have hpos : ¬ (f.neg.constantValue p.angleUnit).re < 0.0 :=
        hopposes.re.not_lt_zero hnegative
      split at h
      · cases h
      · next hformat =>
        split at h
        · next htwo =>
          refine ⟨htwo, (Except.ok.inj h).symm, ?_⟩
          rw [generalRoot]
          simp [hpos, hformat]
        · exact absurd (Except.ok.inj h).symm hne
    · split at h
      · cases h
      · exact absurd (Except.ok.inj h).symm hne

/-! ### Forms whose roots are decided by their values -/

/-- No rule for exact roots applies to the form. -/
structure NoExactRoot (p : Preferences) (f : Form) (n : Nat) : Prop where
  /-- The form is not zero. -/
  ne_zero : f.isZero = false
  /-- It is no rational number. -/
  irrational : f.toRat? = none
  /-- It is no number `a + bi` whose square root is taken. -/
  modulus : ∀ {a b : Rat}, n = 2 → f.gaussianParts? = some (a, b) →
    p.complexFormat ≠ .real ∧ squareRootOfSum? a b = none
  /-- It is no power of constants. -/
  power : f.constantPower? n = none

namespace NoExactRoot

variable {p : Preferences} {n : Nat}

theorem root_eq (h : NoExactRoot p f n) (hn : 2 ≤ n) : root p f n = generalRoot p f n := by
  have hother : otherRoot p f n = generalRoot p f n := by rw [otherRoot, h.power]
  rw [root, h.ne_zero, if_neg (by simp; omega), h.irrational]
  dsimp only
  unfold irrationalRoot
  split
  · exact hother
  · next a b hparts =>
    obtain ⟨htwo, hparts⟩ := Option.ite_none_right_eq_some.1 hparts
    obtain ⟨hformat, hsum⟩ := h.modulus htwo hparts
    rw [if_neg hformat, hsum]
    exact hother

theorem neg (h : NoExactRoot p f n) : NoExactRoot p f.neg n where
  ne_zero := (isZero_neg f).trans h.ne_zero
  irrational := by rw [toRat?_neg, h.irrational]; rfl
  modulus := by
    intro a b hn hparts
    rw [gaussianParts?_neg] at hparts
    obtain ⟨⟨c, d⟩, hparts', heq⟩ := Option.map_eq_some_iff.1 hparts
    obtain ⟨rfl, rfl⟩ := Prod.mk.inj heq
    exact (h.modulus hn hparts').imp_right squareRootOfSum?_neg
  power := by rw [constantPower?_neg, h.power]; rfl

end NoExactRoot

end Resolvent.Form

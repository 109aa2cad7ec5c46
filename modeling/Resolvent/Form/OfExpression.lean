import Resolvent.Form.Elementary
import Resolvent.Number.Digits
import Resolvent.Expression.Expansion

/-!
# Forms of expressions

The canonical form of an expanded expression, built from the forms of its operands.  Doubles stand
for the rational number that their shortest digits denote.  Functions without an exact value become
atoms.

Exponents are signed words of 64 bits.  The least word is its own absolute value and its own
opposite, so that it passes the test for large exponents, and a power of it is the same power of the
inverse.  Nothing ends these calls but a form without an inverse.
-/

namespace Resolvent

namespace Form

/-- The largest index of a root that is taken exactly. -/
def maxRootIndex : Nat := 64

/-- The root of a form, or the error that there is none. -/
def rootOrUnreal (p : Preferences) (f : Form) (index : Nat) : Except CanonicalError Form :=
  (root p f index).mapError fun _ => .unreal

theorem rootOrUnreal_eq_ok_iff {p : Preferences} {f r : Form} {index : Nat} :
    rootOrUnreal p f index = .ok r ↔ root p f index = .ok r := by
  unfold rootOrUnreal
  rcases root p f index with x | s
  · exact iff_of_false nofun nofun
  · constructor <;> rintro ⟨⟩ <;> rfl

/-- The least word of 64 bits. -/
def leastWord : Int := -9223372036854775808

/-- The room for nested calls. -/
def callRoom : Nat := 4096

/-- Inverting a form again and again comes to a form without an inverse, within the room for nested
calls. -/
def inversesEnd : Nat → Form → Bool
  | 0, _ => false
  | room + 1, f =>
    match f.inverse? with
    | some g => inversesEnd room g
    | none => true

/-- The power whose exponent is a word, if it has an expansion. -/
def wordPower (f : Form) (k : Int) : Except CanonicalError (Option Form) :=
  if k = leastWord then if f.inversesEnd callRoom then .ok none else .error .overflow
  else .ok (f.pow? k)

/-- The power of a form other than zero with a rational exponent.  Powers that are too large stay
atoms.  The absolute value of the numerator is a word. -/
def rationalPower (p : Preferences) (base : Form) (q : Rat) : Except CanonicalError Form :=
  let kept := ofAtom (.power base (ofRat q))
  match Rational.toInt64? q with
  | some k => (base.wordPower k).map fun r => r.getD kept
  | none =>
    if Width.isInt64 q.num ∧ Width.wrap64 q.num.natAbs ≤ maxExpandedPower ∧
        q.den ≤ maxRootIndex then do
      match ← base.wordPower q.num with
      | some raised => rootOrUnreal p raised q.den
      | none => return kept
    else return kept

theorem pow?_leastWord (f : Form) : f.pow? leastWord = none := by
  rw [pow?, powWith, if_pos (by decide)]

theorem wordPower_of_ne {f : Form} {k : Int} (hk : k ≠ leastWord) :
    f.wordPower k = .ok (f.pow? k) := if_neg hk

/-- A power of a word is the power of the whole number, if it is computed at all. -/
theorem eq_pow?_of_wordPower {f : Form} {k : Int} {r : Option Form}
    (h : f.wordPower k = .ok r) : r = f.pow? k := by
  by_cases hk : k = leastWord
  · rw [wordPower, if_pos hk] at h
    split at h
    · rw [hk, pow?_leastWord, ← Except.ok.inj h]
    · cases h
  · rw [wordPower_of_ne hk] at h
    exact (Except.ok.inj h).symm

theorem wordPower_of_pow? {f g : Form} {k : Int} (h : f.pow? k = some g) :
    f.wordPower k = .ok (some g) := by
  rw [wordPower_of_ne, h]
  rintro rfl
  rw [pow?_leastWord] at h
  cases h

/-- The least word passes the test of the bound as a numerator, and no other number does that is not
within the bound. -/
theorem numerator_in_bound_iff {n : Int} :
    Width.isInt64 n = true ∧ Width.wrap64 n.natAbs ≤ maxExpandedPower ↔
      n = leastWord ∨ n.natAbs ≤ maxExpandedPower := by
  by_cases hleast : n = leastWord
  · simp only [hleast, true_or, iff_true]
    decide
  · rw [Width.isInt64_iff]
    unfold leastWord at hleast
    constructor
    · rintro ⟨hword, hle⟩
      rw [Width.wrap64_of_isInt64 (Width.isInt64_iff.2 (by omega))] at hle
      exact .inr (by exact_mod_cast hle)
    · intro hle
      have hsmall := hle.resolve_left hleast
      unfold maxExpandedPower at hsmall ⊢
      rw [Width.wrap64_of_isInt64 (Width.isInt64_iff.2 (by omega))]
      omega

/-- What a power with a rational exponent is: a power with a whole exponent, the root of one, or an
atom. -/
theorem rationalPower_inversion {p : Preferences} {f r : Form} {q : Rat}
    (h : rationalPower p f q = .ok r) :
    (∃ k, Rational.toInt64? q = some k ∧ r = (f.pow? k).getD (ofAtom (.power f (ofRat q)))) ∨
    (Rational.toInt64? q = none ∧ q.num.natAbs ≤ maxExpandedPower ∧ q.den ≤ maxRootIndex ∧
      ∃ raised, f.pow? q.num = some raised ∧ rootOrUnreal p raised q.den = .ok r) ∨
    (Rational.toInt64? q = none ∧ r = ofAtom (.power f (ofRat q)) ∧
      (maxExpandedPower < q.num.natAbs ∨ maxRootIndex < q.den ∨ f.pow? q.num = none)) := by
  unfold rationalPower at h
  dsimp only at h
  cases hk : Rational.toInt64? q with
  | some k =>
    rw [hk] at h
    dsimp only at h
    cases hpower : f.wordPower k with
    | error x =>
      rw [hpower] at h
      cases h
    | ok power =>
      rw [hpower] at h
      cases h
      exact .inl ⟨k, rfl, by rw [eq_pow?_of_wordPower hpower]⟩
  | none =>
    refine .inr ?_
    rw [hk] at h
    dsimp only at h
    split at h
    · next hlimits =>
      rw [← and_assoc, numerator_in_bound_iff] at hlimits
      cases hpower : f.wordPower q.num with
      | error x =>
        rw [hpower] at h
        cases h
      | ok power =>
        rw [hpower] at h
        have hpow := eq_pow?_of_wordPower hpower
        cases power with
        | none =>
          cases h
          exact .inr ⟨rfl, rfl, .inr (.inr hpow.symm)⟩
        | some raised =>
          have hsmall : q.num.natAbs ≤ maxExpandedPower := hlimits.1.resolve_left fun hleast => by
            rw [hleast, pow?_leastWord] at hpow
            cases hpow
          exact .inl ⟨rfl, hsmall, hlimits.2, raised, hpow.symm, h⟩
    · next hlimits =>
      cases h
      rw [← and_assoc, numerator_in_bound_iff] at hlimits
      refine .inr ⟨rfl, rfl, ?_⟩
      omega

theorem rationalPower_of_pow? {p : Preferences} {f g : Form} {q : Rat} {k : Int}
    (hk : Rational.toInt64? q = some k) (h : f.pow? k = some g) : rationalPower p f q = .ok g := by
  rw [rationalPower, hk]
  dsimp only
  rw [wordPower_of_pow? h]
  rfl

/-- The power of two forms. -/
def power (p : Preferences) (base exponent : Form) : Except CanonicalError Form :=
  match exponent.toRat? with
  | none => .ok (ofAtom (.power base exponent))
  | some q =>
    if base.isZero then if 0 < q then .ok zero else .error .undefined
    else rationalPower p base q

/-- The index of a root that is taken exactly. -/
def rootIndex? (f : Form) : Option Nat :=
  match f.toRat?.bind Rational.toInteger? with
  | some (.ofNat n) => if 1 ≤ n ∧ n ≤ maxRootIndex then some n else none
  | _ => none

/-- The root of a form with another form as its index. -/
def rootBy (p : Preferences) (f index : Form) : Except CanonicalError Form :=
  match index.rootIndex? with
  | some n => rootOrUnreal p f n
  | none =>
    match index.inverse? with
    | some exponent => power p f exponent
    | none => .error .undefined

/-- The value of an angle function at a form, if there is an exact one. -/
def angleFunction? (unit : AngleUnit) (f : Builtin) (x : Form) :
    Except CanonicalError (Option Form) :=
  match x.twelfths? unit with
  | none => .ok none
  | some k =>
    match f with
    | .sin => .ok (sine? k)
    | .cos => .ok (cosine? k)
    | _ =>
      match tangent? k with
      | none => .ok none
      | some (some t) => .ok (some t)
      | some none => .error .undefined

/-- The value of an inverse angle function at a form, if there is an exact one. -/
def inverseAngleFunction? (unit : AngleUnit) (f : Builtin) (x : Form) : Option Form :=
  x.toRat?.bind fun q =>
    (match f with
      | .asin => inverseSine? q
      | .acos => inverseCosine? q
      | _ => inverseTangent? q).map (ofHalfTurns unit)

/-- The exact value of a built-in function at its first argument, if there is one. -/
def exactValue? (p : Preferences) (f : Builtin) (x : Form) (rest : List Form) :
    Except CanonicalError (Option Form) :=
  match f with
  | .sqrt => (rootOrUnreal p x 2).map some
  | .root => (rootBy p x (rest.getLast?.getD x)).map some
  | .exp => .ok (some (exponential x))
  | .ln => .ok x.logarithm?
  | .log10 => .ok x.decimalLogarithm?
  | .abs => .ok (absolute? p x)
  | .sin | .cos | .tan => angleFunction? p.angleUnit f x
  | .asin | .acos | .atan => .ok (inverseAngleFunction? p.angleUnit f x)
  | .conj => .ok x.conjugate?
  | .re => .ok (x.splitComplex?.map Prod.fst)
  | .im => .ok (x.splitComplex?.map Prod.snd)

/-- The form of a built-in function, by its code. -/
def ofFunction (p : Preferences) (code : Nat) (args : List Form) : Except CanonicalError Form :=
  match args, Builtin.ofCode? code with
  | x :: rest, some f =>
    (exactValue? p f x rest).map fun value => value.getD (ofAtom (.apply f args))
  | _, _ => .error .undefined

/-- The form of a double. -/
def ofFloat (x : Float) : Except CanonicalError Form :=
  match Double.shortestRational? x with
  | some q => .ok (ofRat q)
  | none => .error .undefined

/-- The form of a constant. -/
def ofConstant : Constant → Form
  | .pi => pi
  | .e => e
  | .imaginaryUnit => imaginaryUnit

end Form

namespace Expression

/-- The expression is Euler's number. -/
def isE : Expression → Bool
  | constant .e => true
  | _ => false

mutual

/-- The canonical form of an expanded expression. -/
def form (p : Preferences) : Expression → Except CanonicalError Form
  | integer n => .ok (Form.ofRat n)
  | fraction q => .ok (Form.ofRat q)
  | float bits => Form.ofFloat (Float.ofBits bits)
  | symbol id => .ok (Form.symbol id)
  | constant c => .ok (Form.ofConstant c)
  | undefined | call _ _ => .error .undefined
  | unreal => .error .unreal
  | matrix _ _ _ => .error .matrix
  | sum args => (forms p args).map fun fs => fs.foldl Form.add Form.zero
  | product args => (forms p args).map fun fs => fs.foldl Form.mul Form.one
  | opposite arg => (form p arg).map Form.neg
  | quotient numerator denominator => do
    let n ← form p numerator
    let d ← form p denominator
    match n.divide? d with
    | some q => return q
    | none => throw .undefined
  | power base exponent => do
    let k ← form p exponent
    if base.isE then return Form.exponential k
    let b ← form p base
    Form.power p b k
  | apply code args => do
    let fs ← forms p args
    Form.ofFunction p code fs

/-- The canonical forms of a list of expanded expressions; the first error is that of the list. -/
def forms (p : Preferences) : List Expression → Except CanonicalError (List Form)
  | [] => .ok []
  | e :: es => do
    let f ← form p e
    let fs ← forms p es
    return f :: fs

end

theorem form_integer (p : Preferences) (n : Int) : (integer n).form p = .ok (Form.ofRat n) := by
  simp [form]

end Expression

end Resolvent

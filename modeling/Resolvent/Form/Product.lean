import Resolvent.Form.Sum
import Resolvent.Form.PerfectPower

/-!
# Products of forms

A product of atoms is normalised by the rules that make forms unique: factors are kept in order with
their exponents added up; the imaginary unit occurs once at most; roots with one index become one
root free of perfect powers; whole powers of radicals and negative powers of reciprocals are
multiplied out.  Multiplying out makes new products of atoms that are nested less deep, so
`normalize` recurs on a bound for the nesting that its callers take from their operands.

A sum has an inverse too.  Its conjugate in the imaginary unit or in a square root makes its
denominator rational, and where that does not end after four steps the inverse is kept as the
reciprocal of a sum whose leading coefficient is one.
-/

namespace Resolvent

/-! ### Factors -/

namespace Monomial

/-- Adds to the exponent of an atom in an ordered list of factors. -/
def insertFactor (a : Atom) (k : Int) : List (Atom × Int) → List (Atom × Int)
  | [] => [(a, k)]
  | (b, l) :: rest =>
    match a.order b with
    | .lt => (a, k) :: (b, l) :: rest
    | .eq => (b, l + k) :: rest
    | .gt => (b, l) :: insertFactor a k rest

/-- Orders factors and adds up the exponents of each atom, without those that cancel. -/
def collectFactors (factors : List (Atom × Int)) : List (Atom × Int) :=
  (factors.foldl (fun sorted x => insertFactor x.1 x.2 sorted) []).filter fun x => x.2 != 0

/-- The factors with their exponents multiplied. -/
def scaleExponents (m : Monomial) (k : Int) : List (Atom × Int) :=
  m.factors.map fun x => (x.1, x.2 * k)

end Monomial

namespace Form

/-- What normalisation makes of one factor. -/
structure Share where
  /-- A rational factor. -/
  coefficient : Rat := 1
  /-- The factors that stay. -/
  kept : List (Atom × Int) := []
  /-- The forms that are multiplied out. -/
  expanded : List Form := []

/-- A power of the imaginary unit is a sign and at most one unit. -/
def unitShare (k : Int) : Share :=
  let r := k % 4
  { coefficient := if r = 2 ∨ r = 3 then -1 else 1
    kept := if r = 1 ∨ r = 3 then [(.imaginaryUnit, 1)] else [] }

/-- The whole powers in a power of a radical are powers of the radicand. -/
def radicalShare (power : Form → Int → Option Form) (radicand : Form) (index : Nat) (k : Int) :
    Share :=
  match power radicand (k / index) with
  | some p =>
    { kept := if k % index = 0 then []
        else [(.radical radicand index, Width.clamp32 (k % index))]
      expanded := [p] }
  | none => { kept := [(.radical radicand index, Width.clamp32 k)] }

/-- A negative power of a reciprocal is a power of the sum in it. -/
def reciprocalShare (power : Form → Int → Option Form) (inner : Form) (k : Int) : Share :=
  if k < 0 then
    match power inner (-k) with
    | some p => { expanded := [p] }
    | none => { kept := [(.reciprocal inner, Width.clamp32 k)] }
  else { kept := [(.reciprocal inner, Width.clamp32 k)] }

/-- What normalisation makes of a factor that is no root. -/
def share (power : Form → Int → Option Form) : Atom × Int → Share
  | (.imaginaryUnit, k) => unitShare k
  | (.radical radicand index, k) => radicalShare power radicand index k
  | (.reciprocal inner, k) => reciprocalShare power inner k
  | (.root _ _, _) => {}
  | (a, k) => { kept := [(a, Width.clamp32 k)] }

/-! ### Roots -/

/-- Inserts a number into an ordered list without repetitions. -/
def insertIndex (n : Nat) : List Nat → List Nat
  | [] => [n]
  | m :: rest => if n < m then n :: m :: rest else if n = m then m :: rest
    else m :: insertIndex n rest

/-- The indices of the roots among the factors, in order. -/
def rootIndices (factors : List (Atom × Int)) : List Nat :=
  factors.foldl (fun indices x =>
    match x.1 with
    | .root _ index => insertIndex index indices
    | _ => indices) []

/-- The radicands of the roots with an index, with their exponents. -/
def radicandsOf (index : Nat) (factors : List (Atom × Int)) : List (Rat × Int) :=
  factors.filterMap fun x =>
    match x.1 with
    | .root radicand n => if n = index then some (radicand, x.2) else none
    | _ => none

/-- The whole powers in a power of a root. -/
def wholePower (index : Nat) (x : Rat × Int) : Rat :=
  let whole := x.2 / index
  (Rational.power? x.1 (if Width.isInt32 whole then whole else 2147483647)).getD 1

/-- The power of the radicand that stays under a root. -/
def restPower (index : Nat) (x : Rat × Int) : Rat :=
  let rest := x.2 % index
  (Rational.power? x.1 (if Width.isInt32 rest then rest else 0)).getD 1

/-- Makes one root of the roots with an index. -/
def rootShare (factors : List (Atom × Int)) (index : Nat) : Share :=
  let radicands := radicandsOf index factors
  let whole := radicands.foldl (fun q x => q * wholePower index x) 1
  let residual := radicands.foldl (fun q x => q * restPower index x) 1
  let (outside, inside) := PerfectPower.extract residual index
  { coefficient := whole * outside
    kept := if inside = 1 then [] else [(.root inside index, 1)] }

/-- What normalisation makes of ordered factors: all of them in turn, and the roots index by
index. -/
def shares (power : Form → Int → Option Form) (factors : List (Atom × Int)) : List Share :=
  factors.map (share power) ++ (rootIndices factors).map (rootShare factors)

/-! ### Normalisation -/

/-- Normalises a product of a coefficient and atoms, given how forms are multiplied and raised to
powers. -/
def normalizeWith (multiply : Form → Form → Form) (power : Form → Int → Option Form)
    (coefficient : Rat) (factors : List (Atom × Int)) : Form :=
  if coefficient = 0 then zero
  else
    let parts := shares power (Monomial.collectFactors factors)
    let coefficient := parts.foldl (fun q s => q * s.coefficient) coefficient
    let kept := Monomial.collectFactors (parts.flatMap Share.kept)
    let expanded := (parts.flatMap Share.expanded).foldl multiply one
    let term := ofTerm ⟨kept⟩ coefficient
    if expanded.isOne then term else multiply term expanded

/-- The product of two terms, where a constant needs no normalisation. -/
def mulTermWith (normalize : Rat → List (Atom × Int) → Form) (s t : Monomial × Rat) : Form :=
  let coefficient := s.2 * t.2
  if t.1.isOne then ofTerm s.1 coefficient
  else if s.1.isOne then ofTerm t.1 coefficient
  else normalize coefficient (s.1.factors ++ t.1.factors)

/-- The product of two forms. -/
def mulWith (normalize : Rat → List (Atom × Int) → Form) (f g : Form) : Form :=
  sumAll (f.terms.flatMap fun s => g.terms.map fun t => mulTermWith normalize s t)

/-- Multiplies the squares of a base that belong to the binary digits of an exponent to a result. -/
def powLoop (multiply : Form → Form → Form) (result base : Form) (n : Nat) : Form :=
  if n = 0 then result
  else
    let result := if n % 2 = 1 then multiply result base else result
    if n / 2 = 0 then result else powLoop multiply result (multiply base base) (n / 2)
termination_by n

/-- The power with a natural exponent.  A single term has its exponents multiplied. -/
def powNatWith (normalize : Rat → List (Atom × Int) → Form) (f : Form) (n : Nat) : Form :=
  if n = 0 then one
  else
    match f.singleTerm? with
    | some (m, q) => normalize (Rat.pow q n) (m.scaleExponents n)
    | none => powLoop (mulWith normalize) one f n

/-- The imaginary unit or a square root. -/
def isQuadratic : Atom → Bool
  | .imaginaryUnit => true
  | .root _ index => index == 2
  | .radical _ index => index == 2
  | _ => false

/-- The first imaginary unit or square root in a form. -/
def quadraticUnit? (f : Form) : Option Atom :=
  f.terms.findSome? fun t => (t.1.factors.find? fun x => isQuadratic x.1).map Prod.fst

/-- The form with the opposite of its first imaginary unit or square root in place of it. -/
def rationalizingConjugate? (f : Form) : Option Form :=
  f.quadraticUnit?.map fun u =>
    ⟨f.terms.map fun t => (t.1, if t.1.exponentOf u = 0 then t.2 else -t.2)⟩

/-- The reciprocal of a sum, with its leading coefficient taken out. -/
def reciprocalOf (normalize : Rat → List (Atom × Int) → Form) (f : Form) : Form :=
  let factor := f.leadingCoefficient⁻¹
  normalize factor [(.reciprocal (f.scale factor), 1)]

/-- The inverse of a form, with a number of conjugates that may be used to make its denominator
rational. -/
def inverseWith (normalize : Rat → List (Atom × Int) → Form) : Nat → Form → Option Form
  | 0, f =>
    if f.isZero then none
    else
      match f.singleTerm? with
      | some (m, q) => some (normalize q⁻¹ (m.scaleExponents (-1)))
      | none => some (reciprocalOf normalize f)
  | budget + 1, f =>
    if f.isZero then none
    else
      match f.singleTerm? with
      | some (m, q) => some (normalize q⁻¹ (m.scaleExponents (-1)))
      | none =>
        match f.rationalizingConjugate? with
        | none => some (reciprocalOf normalize f)
        | some conjugate =>
          match inverseWith normalize budget (mulWith normalize f conjugate) with
          | some inverse => some (mulWith normalize conjugate inverse)
          | none => some (reciprocalOf normalize f)

/-- How many conjugates are used for one inverse. -/
def maxRationalizations : Nat := 4

/-- The largest exponent of a power that is multiplied out. -/
def maxExpandedPower : Nat := 32

/-- The power with a whole exponent; large powers, and negative powers of zero, have no
expansion. -/
def powWith (normalize : Rat → List (Atom × Int) → Form) (f : Form) (k : Int) : Option Form :=
  if maxExpandedPower < k.natAbs then none
  else if k < 0 then
    (inverseWith normalize maxRationalizations f).map fun g => powNatWith normalize g k.natAbs
  else some (powNatWith normalize f k.natAbs)

/-- Normalises a product of a coefficient and atoms, where products of atoms may give rise to others
a number of times in a row. -/
def normalize : Nat → Rat → List (Atom × Int) → Form
  | 0 => normalizeWith (fun f _ => f) fun _ _ => none
  | n + 1 => normalizeWith (mulWith (normalize n)) (powWith (normalize n))

/-- How many times in a row products of atoms with a depth of nesting give rise to others at
most. -/
def unfoldings (depth : Nat) : Nat := 4 * depth + 16

/-- Normalises a product of a coefficient and atoms. -/
def ofFactors (coefficient : Rat) (factors : List (Atom × Int)) : Form :=
  normalize (unfoldings (Monomial.depthFactors factors)) coefficient factors

/-- No root among the factors has the index zero. -/
def haveIndices (factors : List (Atom × Int)) : Bool :=
  (Monomial.collectFactors factors).all fun x =>
    match x.1 with
    | .root _ index | .radical _ index => index != 0
    | _ => true

/-- Normalises a product of a coefficient and atoms of any kind; roots with the index zero have no
value. -/
def ofFactors? (coefficient : Rat) (factors : List (Atom × Int)) : Option Form :=
  if coefficient = 0 ∨ haveIndices factors then some (ofFactors coefficient factors) else none

/-- An atom with coefficient one. -/
def ofAtom (a : Atom) : Form := ofFactors 1 [(a, 1)]

/-- The product of two forms. -/
def mul (f g : Form) : Form :=
  mulWith (normalize (unfoldings (f.depth + g.depth))) f g

/-- The power with a whole exponent; large powers, and negative powers of zero, have no
expansion. -/
def pow? (f : Form) (k : Int) : Option Form := powWith (normalize (unfoldings f.depth)) f k

/-- The inverse of a form other than zero. -/
def inverse? (f : Form) : Option Form :=
  inverseWith (normalize (unfoldings f.depth)) maxRationalizations f

/-- The quotient by a form other than zero. -/
def divide? (f g : Form) : Option Form := g.inverse?.map (mul f)

/-- A symbol. -/
def symbol (id : Nat) : Form := ofAtom (.symbol id)

/-- The circle number. -/
def pi : Form := ofAtom .pi

/-- Euler's number. -/
def e : Form := ofAtom .e

/-- The imaginary unit. -/
def imaginaryUnit : Form := ofAtom .imaginaryUnit

theorem inverseWith_zero (normalize : Rat → List (Atom × Int) → Form) (n : Nat) :
    inverseWith normalize n zero = none := by
  cases n <;> simp [inverseWith, isZero, zero]

theorem powWith_zero (normalize : Rat → List (Atom × Int) → Form) (f : Form) :
    powWith normalize f 0 = some one := by
  simp [powWith, powNatWith]

theorem powWith_of_lt (normalize : Rat → List (Atom × Int) → Form) (f : Form) {k : Int}
    (h : maxExpandedPower < k.natAbs) : powWith normalize f k = none := by
  simp [powWith, h]

end Form

end Resolvent

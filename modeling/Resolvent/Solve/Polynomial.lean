import Resolvent.Form.Coefficients
import Resolvent.Solve.Answer

/-!
# Quadratic and cubic equations

A quadratic equation is solved by its discriminant.  A cubic equation is searched for a simple root,
which leaves a quadratic one: zero, a quotient of coefficients, a rational number, or the opposite
of a term of the second coefficient.  A pure cubic `ax³ + d = 0` has the cube roots, and a cubic
without discriminant a multiple root.  Otherwise the formula of Cardano is evaluated in doubles.
-/

namespace Resolvent

/-- A quadratic polynomial `ax² + bx + c`. -/
structure Quadratic where
  a : Form
  b : Form
  c : Form

/-- A cubic polynomial `ax³ + bx² + cx + d`. -/
structure Cubic where
  a : Form
  b : Form
  c : Form
  d : Form

namespace Quadratic

/-- The discriminant `b² - 4ac`. -/
def discriminant (q : Quadratic) : Form :=
  Form.sub (Form.mul q.b q.b) ((Form.mul q.a q.c).scale 4)

/-- The roots, given the inverse of `2a`. -/
def rootsWith (p : Preferences) (q : Quadratic) (inverse : Form) : List Answer :=
  let delta := q.discriminant
  let minusB := Form.neg q.b
  if delta.isZero then [.exact (Form.mul minusB inverse)]
  else
    match delta.root p 2 with
    | .ok r =>
      [.exact (Form.mul (Form.sub minusB r) inverse), .exact (Form.mul (Form.add minusB r) inverse)]
    | .error _ => [.unreal, .unreal]

/-- The roots. -/
def roots (p : Preferences) (q : Quadratic) : List Answer :=
  match (q.a.scale 2).inverse? with
  | some inverse => q.rootsWith p inverse
  | none => [.undefined]

end Quadratic

namespace Cubic

/-- The discriminant `b²c² + 18abcd - 27a²d² - 4ac³ - 4b³d`. -/
def discriminant (q : Cubic) : Form :=
  let bc := Form.mul q.b q.c
  let ad := Form.mul q.a q.d
  [Form.mul bc bc, (Form.mul ad bc).scale 18, (Form.mul ad ad).scale (-27),
    (Form.mul (Form.mul q.a q.c) (Form.mul q.c q.c)).scale (-4),
    (Form.mul (Form.mul q.b q.b) (Form.mul q.b q.d)).scale (-4)].foldl Form.add Form.zero

/-- The value at a form, from the leading coefficient on. -/
def evaluate (q : Cubic) (r : Form) : Form :=
  [q.a, q.b, q.c, q.d].foldl (fun value k => Form.add (Form.mul value r) k) Form.zero

/-- The form is a root. -/
def isRoot (q : Cubic) (r : Form) : Bool := (q.evaluate r).isZero

/-! ### Rational roots -/

/-- The divisors of a number, in increasing order. -/
def divisors (n : Nat) : List Nat :=
  let small := (List.range n.sqrt).filterMap fun k => if n % (k + 1) = 0 then some (k + 1) else none
  small ++ (small.reverse.filter fun k => k * k != n).map fun k => n / k

/-- The largest coefficient whose divisors are tried. -/
def maxTriedCoefficient : Nat := 1000000

/-- The values of a rational polynomial, from the leading coefficient on. -/
def valueAt (coefficients : List Rat) (x : Rat) : Rat :=
  coefficients.foldl (fun value k => value * x + k) 0

/-- The fractions whose numerator divides the constant and whose denominator divides the leading
coefficient. -/
def candidates (leading constant : Nat) : List Rat :=
  (divisors constant).flatMap fun n =>
    (divisors leading).flatMap fun d =>
      if Nat.gcd n d = 1 then [mkRat n d, mkRat (-(n : Int)) d] else []

/-- A rational root of a polynomial with rational coefficients that are not too large. -/
def rationalRootOf? (coefficients : List Rat) : Option Rat :=
  match (Rational.commonDenominator? coefficients).filter fun d => Width.isInt128 d with
  | none => none
  | some d =>
    let scaled := coefficients.map fun q => (q * (d : Rat)).num
    let leading := (scaled.head?.getD 0).natAbs
    let constant := (scaled.getLast?.getD 0).natAbs
    if scaled.all Width.isInt128 ∧ leading ≠ 0 ∧ constant ≠ 0 ∧ leading ≤ maxTriedCoefficient ∧
        constant ≤ maxTriedCoefficient then
      (candidates leading constant).find? fun x => valueAt coefficients x == 0
    else none

/-- A rational root of a polynomial with rational coefficients. -/
def rationalRoot? (q : Cubic) : Option Form :=
  (([q.a, q.b, q.c, q.d].mapM Form.toRat?).bind rationalRootOf?).map Form.ofRat

/-! ### Simple roots -/

/-- A root that is the opposite of a term of the second coefficient over the leading one. -/
def termRoot? (q : Cubic) : Option Form :=
  q.b.terms.findSome? fun t =>
    ((Form.neg (Form.ofFactors t.2 t.1.factors)).divide? q.a).filter q.isRoot

/-- A root that is easy to see. -/
def simpleRoot? (q : Cubic) : Option Form :=
  if q.d.isZero then some Form.zero
  else
    match ((Form.neg q.d).divide? q.c).filter q.isRoot with
    | some r => some r
    | none =>
      match q.rationalRoot? with
      | some r => some r
      | none => q.termRoot?

/-- A root, and those of the quadratic polynomial that it leaves. -/
def rootsBeside (p : Preferences) (q : Cubic) (r : Form) : List Answer :=
  let linear := Form.add q.b (Form.mul q.a r)
  let constant := if r.isZero then some q.c else (Form.neg q.d).divide? r
  .exact r ::
    match constant with
    | some constant => (⟨q.a, linear, constant⟩ : Quadratic).roots p
    | none => [.undefined]

/-- The cube roots of a form. -/
def cubeRoots (root : Form) : List Answer :=
  let half := Form.ofRat (-1 / 2)
  let rotation := Form.ofFactors (1 / 2) [(.root 3 2, 1), (.imaginaryUnit, 1)]
  [.exact (Form.mul root (Form.add half rotation)), .exact (Form.mul root (Form.sub half rotation)),
    .exact root]

/-- The roots of a polynomial `ax³ + d`. -/
def pureRoots (p : Preferences) (q : Cubic) : List Answer :=
  match (Form.neg q.d).divide? q.a with
  | none => [.undefined]
  | some ratio =>
    match ratio.root p 3 with
    | .ok r => cubeRoots r
    | .error _ => [.unreal, .unreal, .unreal]

/-- The roots of a polynomial without discriminant. -/
def multipleRoots (q : Cubic) : List Answer :=
  let delta := Form.sub (Form.mul q.b q.b) ((Form.mul q.a q.c).scale 3)
  if delta.isZero then [.ofForm? ((Form.neg q.b).divide? (q.a.scale 3))]
  else
    let ad := Form.mul q.a q.d
    let abc := Form.mul (Form.mul q.a q.b) q.c
    let double := (Form.sub (ad.scale 9) (Form.mul q.b q.c)).divide? (delta.scale 2)
    let numerator := Form.sub (Form.sub (abc.scale 4) ((Form.mul q.a ad).scale 9))
      (Form.mul (Form.mul q.b q.b) q.b)
    [.ofForm? double, .ofForm? (numerator.divide? (Form.mul q.a delta))]

/-! ### Numeric roots -/

/-- The product of a real and a complex number. -/
def times (x : Float) (z : Complex) : Complex := ⟨x * z.re, x * z.im⟩

/-- The cube under the roots in the formula of Cardano: of the two values the larger one. -/
def cardanoCube (delta0 delta1 : Complex) : Complex :=
  if delta0.norm == 0.0 then delta1
  else
    let root := ((delta1.mul delta1).sub (((times 4.0 delta0).mul delta0).mul delta0)).sqrt
    let plus := delta1.add root
    let minus := delta1.sub root
    (if plus.norm >= minus.norm then plus else minus).unscale 2.0

/-- The root that belongs to one of the cube roots. -/
def cardanoRoot (za zb delta0 cubeRoot : Complex) : Complex :=
  if cubeRoot.norm == 0.0 then zb.neg.div (times 3.0 za)
  else ((zb.add cubeRoot).add (delta0.div cubeRoot)).neg.div (times 3.0 za)

/-- The formula of Cardano. -/
def cardano (za zb zc zd : Complex) : List Complex :=
  let delta0 := (zb.mul zb).sub ((times 3.0 za).mul zc)
  let delta1 := ((((times 2.0 zb).mul zb).mul zb).sub (((times 9.0 za).mul zb).mul zc)).add
    (((times 27.0 za).mul za).mul zd)
  let rotation : Complex := ⟨-0.5, (3.0 : Float).sqrt / 2.0⟩
  let first := (cardanoCube delta0 delta1).cbrt
  let second := first.mul rotation
  [first, second, second.mul rotation].map (cardanoRoot za zb delta0)

/-- The place of the first number that is closest to the real axis. -/
def closestToReal (zs : List Complex) : Nat :=
  let keys := zs.map fun z => Double.rank z.im.abs
  (keys.findIdx? fun k => keys.all fun l => decide (k ≤ l)).getD 0

/-- The roots, where real coefficients have three real roots or one. -/
def numericRoots (p : Preferences) (q : Cubic) : List Answer :=
  let value (f : Form) : Complex := f.constantValue p.angleUnit
  let zs := [q.a, q.b, q.c, q.d].map value
  let roots := cardano (value q.a) (value q.b) (value q.c) (value q.d)
  let real (z : Complex) : Complex := ⟨z.re, 0.0⟩
  let roots :=
    if zs.all fun z => z.im == 0.0 then
      if (value q.discriminant).re > 0.0 then roots.map real
      else roots.modify (closestToReal roots) real
    else roots
  roots.map .approximate

/-- The roots. -/
def roots (p : Preferences) (q : Cubic) : List Answer :=
  if !q.d.isZero && q.b.isZero && q.c.isZero then q.pureRoots p
  else
    match q.simpleRoot? with
    | some r => q.rootsBeside p r
    | none => if q.discriminant.isZero then q.multipleRoots else q.numericRoots p

end Cubic

/-! ### Polynomial equations -/

/-- The roots of a polynomial. -/
structure PolynomialRoots where
  /-- The degree. -/
  degree : Int
  /-- The roots in order, and the discriminant behind them. -/
  answers : List Answer

/-- The highest degree that is solved exactly. -/
def maxExactDegree : Nat := 3

/-- Solves the equation that says that a form is zero, if it is quadratic or cubic in
the unknown. -/
def Form.polynomialRoots? (p : Preferences) (f : Form) (unknown : Nat) : Option PolynomialRoots :=
  match f.polynomial? unknown maxExactDegree with
  | some [c, b, a] =>
    let q : Quadratic := ⟨a, b, c⟩
    some ⟨2, Answer.listed p (q.roots p) ++ [.exact q.discriminant]⟩
  | some [d, c, b, a] =>
    let q : Cubic := ⟨a, b, c, d⟩
    some ⟨3, Answer.listed p (q.roots p) ++ [.exact q.discriminant]⟩
  | _ => none

end Resolvent

import Resolvent.Form.OfExpression

/-!
# The recursion of normalisation

Normalising a product of atoms, multiplying, raising to a power and inverting call one another.
`Form.Call.body` says what each of them does with the answers to the calls that it makes, on
exponents that are signed words of 64 bits, and `Form.Call.run` follows the calls with room for a
number of nested ones.  Nothing here bounds the recursion: a call that never returns has no answer
however much room there is.
-/

namespace Resolvent.Form

/-! ### Calls -/

/-- A call of one of the functions that call one another. -/
inductive Call where
  /-- Normalises a product of a coefficient and atoms. -/
  | normalize (coefficient : Rat) (factors : List (Atom × Int))
  /-- Multiplies two forms. -/
  | multiply (f g : Form)
  /-- Raises a form to a whole power. -/
  | power (f : Form) (k : Int)
  /-- Inverts a form, with a number of conjugates that may be used. -/
  | invert (budget : Nat) (f : Form)

/-- What a call answers.  There are forms without an inverse and powers without an expansion. -/
def Call.Result : Call → Type
  | normalize _ _ | multiply _ _ => Form
  | power _ _ | invert _ _ => Option Form

/-- A procedure makes calls one after the other. -/
inductive Procedure (α : Type) where
  /-- The procedure is done. -/
  | done (a : α)
  /-- The procedure goes on with the answer to a call. -/
  | ask (c : Call) (next : c.Result → Procedure α)

namespace Procedure

variable {α β : Type}

/-- One procedure after the other. -/
def andThen (x : Procedure α) (next : α → Procedure β) : Procedure β :=
  match x with
  | done a => next a
  | ask c after => ask c fun r => (after r).andThen next

instance : Monad Procedure where
  pure := done
  bind := andThen

/-- The result of a procedure whose calls are answered, unless one of them has no answer. -/
def answerWith (answer : (c : Call) → Option c.Result) : Procedure α → Option α
  | done a => some a
  | ask c next =>
    match answer c with
    | some r => (next r).answerWith answer
    | none => none

end Procedure

namespace Procedure

/-- Makes a call that normalises. -/
def normalize (coefficient : Rat) (factors : List (Atom × Int)) : Procedure Form :=
  ask (.normalize coefficient factors) done

/-- Makes a call that multiplies. -/
def multiply (f g : Form) : Procedure Form := ask (.multiply f g) done

/-- Makes a call that raises to a power. -/
def power (f : Form) (k : Int) : Procedure (Option Form) := ask (.power f k) done

/-- Makes a call that inverts. -/
def invert (budget : Nat) (f : Form) : Procedure (Option Form) := ask (.invert budget f) done

end Procedure

/-! ### The bodies of the calls -/

/-- Factors with exponents that are signed words of 64 bits. -/
def words (factors : List (Atom × Int)) : List (Atom × Int) :=
  factors.map fun x => (x.1, Width.wrap64 x.2)

/-- Goes through a list with a procedure and puts the results behind others, which are in reverse. -/
def Procedure.each {α β : Type} (f : α → Procedure β) (results : List β) :
    List α → Procedure (List β)
  | [] => return results.reverse
  | x :: xs => do
    let b ← f x
    each f (b :: results) xs

/-- What normalisation makes of a factor. -/
def shareCalls : Atom × Int → Procedure Share
  | (.radical radicand index, k) => do
    let p ← Procedure.power radicand (k / index)
    return radicalShare (fun _ _ => p) radicand index k
  | (.reciprocal inner, k) =>
    if k < 0 then do
      let p ← Procedure.power inner (Width.wrap64 (-k))
      return reciprocalShare (fun _ _ => p) inner k
    else return reciprocalShare (fun _ _ => none) inner k
  | x => return share (fun _ _ => none) x

/-- Multiplies forms to a form, one after the other. -/
def multiplyCalls (f : Form) : List Form → Procedure Form
  | [] => return f
  | g :: gs => do multiplyCalls (← Procedure.multiply f g) gs

/-- Normalises a product of a coefficient and atoms. -/
def normalizeCalls (coefficient : Rat) (factors : List (Atom × Int)) : Procedure Form :=
  if coefficient = 0 then return zero
  else do
    let collected := words (Monomial.collectFactors factors)
    let own ← Procedure.each shareCalls [] collected
    let parts := own ++ (rootIndices collected).map (rootShare collected)
    let expanded ← multiplyCalls one (parts.flatMap Share.expanded)
    let term := ofTerm ⟨Monomial.collectFactors (parts.flatMap Share.kept)⟩
      (parts.foldl (fun q s => q * s.coefficient) coefficient)
    if expanded.isOne then return term else Procedure.multiply term expanded

/-- The product of two terms. -/
def termCalls (x : (Monomial × Rat) × (Monomial × Rat)) : Procedure Form :=
  let coefficient := x.1.2 * x.2.2
  if x.2.1.isOne then return ofTerm x.1.1 coefficient
  else if x.1.1.isOne then return ofTerm x.2.1 coefficient
  else Procedure.normalize coefficient (x.1.1.factors ++ x.2.1.factors)

/-- Adds up the products of the terms of two forms. -/
def productCalls (f g : Form) : Procedure Form := do
  let products ← Procedure.each termCalls [] (f.terms.flatMap fun s => g.terms.map fun t => (s, t))
  return sumAll products

/-- Multiplies the squares of a base that belong to the binary digits of an exponent to a result. -/
def squareCalls (result base : Form) (n : Nat) : Procedure Form :=
  if h : n = 0 then return result
  else do
    let result ← (if n % 2 = 1 then Procedure.multiply result base else pure result)
    if n / 2 = 0 then return result
    else
      let base ← Procedure.multiply base base
      squareCalls result base (n / 2)
termination_by n

/-- Raises an inverse to a power, if there is one. -/
def inversePowerCalls (k : Int) : Option Form → Procedure (Option Form)
  | some g => Procedure.power g k
  | none => return none

/-- Raises a form to a power with a positive exponent. -/
def positivePowerCalls (f : Form) (k : Int) : Procedure (Option Form) :=
  match f.singleTerm? with
  | some (m, q) => do
    let p ← Procedure.normalize (Rat.pow q k.natAbs) (words (m.scaleExponents k))
    return some p
  | none => do return some (← squareCalls one f k.natAbs)

/-- Raises a form to a power.  The absolute value and the opposite of the exponent are words. -/
def powerCalls (f : Form) (k : Int) : Procedure (Option Form) :=
  if (maxExpandedPower : Int) < Width.wrap64 k.natAbs then return none
  else if k < 0 then
    Procedure.invert maxRationalizations f >>= inversePowerCalls (Width.wrap64 (-k))
  else if k = 0 then return some one
  else positivePowerCalls f k

/-- Makes the reciprocal of a sum. -/
def reciprocalCalls (f : Form) : Procedure (Option Form) := do
  let factor := f.leadingCoefficient⁻¹
  let p ← Procedure.normalize factor [(.reciprocal (f.scale factor), 1)]
  return some p

/-- Inverts a form. -/
def invertCalls (budget : Nat) (f : Form) : Procedure (Option Form) :=
  if f.isZero then return none
  else
    match f.singleTerm? with
    | some (m, q) => do
      let p ← Procedure.normalize q⁻¹ (words (m.scaleExponents (-1)))
      return some p
    | none =>
      match budget with
      | 0 => reciprocalCalls f
      | budget + 1 =>
        match f.rationalizingConjugate? with
        | none => reciprocalCalls f
        | some conjugate => do
          let denominator ← Procedure.multiply f conjugate
          match ← Procedure.invert budget denominator with
          | some inverse => do return some (← Procedure.multiply conjugate inverse)
          | none => reciprocalCalls f

/-- What a call does. -/
def Call.body : (c : Call) → Procedure c.Result
  | normalize coefficient factors => normalizeCalls coefficient factors
  | multiply f g => productCalls f g
  | power f k => powerCalls f k
  | invert budget f => invertCalls budget f

/-- The answer to a call, if no more calls than there is room for are nested in it. -/
def Call.run : Nat → (c : Call) → Option c.Result
  | 0, _ => none
  | room + 1, c => c.body.answerWith (Call.run room)

/-- The call returns, when there is room enough for the calls nested in it. -/
def Call.Returns (c : Call) (r : c.Result) : Prop := ∃ room, c.run room = some r

/-! ### Powers in expressions -/

/-- The power of a form other than zero with a rational exponent, where the absolute value of its
numerator is a word. -/
def rationalPowerCalls (p : Preferences) (base : Form) (q : Rat) :
    Procedure (Except CanonicalError Form) :=
  let kept := ofAtom (.power base (ofRat q))
  match Rational.toInt64? q with
  | some k => do return .ok ((← Procedure.power base k).getD kept)
  | none =>
    if Width.isInt64 q.num ∧ Width.wrap64 q.num.natAbs ≤ maxExpandedPower ∧
        q.den ≤ maxRootIndex then do
      match ← Procedure.power base q.num with
      | some raised => return rootOrUnreal p raised q.den
      | none => return .ok kept
    else return .ok kept

end Resolvent.Form

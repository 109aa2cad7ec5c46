import Resolvent.Form.Product
import Resolvent.Expression.Storage

/-!
# Forms as expressions

`Form.expression` writes a form as a sum of fractions.  The constant term comes last.  Several terms
without atoms in their denominators are put over their common denominator.
-/

namespace Resolvent

namespace Expression

/-- A factor of a product: an expression with the exponent it has. -/
abbrev Factor := Expression × Int

/-- A power whose exponent one is not written. -/
def powerOf (e : Expression) (k : Int) : Expression :=
  if k = 1 then e else power e (integer k)

/-- A coefficient with factors as a fraction, whose sign is in front of it. -/
def fractionOf (coefficient : Rat) (factors : List Factor) : Expression :=
  if factors.isEmpty then ofRat coefficient
  else
    let magnitude := Rational.magnitude coefficient
    let number (n : Nat) : List Expression := if n = 1 then [] else [ofRat n]
    let top := number magnitude.num.natAbs ++
      (factors.filter fun x => decide (0 < x.2)).map fun x => powerOf x.1 x.2
    let bottom := number magnitude.den ++
      (factors.filter fun x => !decide (0 < x.2)).map fun x => powerOf x.1 (Width.negate32 x.2)
    let fraction :=
      if bottom.isEmpty then productOf top else quotient (productOf top) (productOf bottom)
    if coefficient < 0 then opposite fraction else fraction

/-- Puts the term without factors, which stands first if there is one, behind the others. -/
def constantLast : List (Rat × List Factor) → List (Rat × List Factor)
  | (q, []) :: rest => rest ++ [(q, [])]
  | terms => terms

/-- The scale that clears the denominators of several terms, if they have any and nothing else has
one. -/
def clearingScale? (terms : List (Rat × List Factor)) : Option Rat :=
  match Rational.commonDenominator? (terms.map Prod.fst) with
  | some d =>
    if 1 < d ∧ 1 < terms.length ∧ (terms.all fun t => t.2.all fun x => decide (0 ≤ x.2)) then
      some (if Width.isInt128 d then (d : Rat) else 1)
    else none
  | none => none

/-- A sum of terms, over their common denominator if they are several. -/
def sumOfTerms : List (Rat × List Factor) → Expression
  | [] => integer 0
  | [(q, [])] => ofRat q
  | terms =>
    let terms := constantLast terms
    match clearingScale? terms with
    | some d => quotient (sumOf (terms.map fun t => fractionOf (t.1 * d) t.2)) (ofRat d)
    | none => sumOf (terms.map fun t => fractionOf t.1 t.2)

end Expression

mutual

/-- An atom as an expression. -/
def Atom.expression : Atom → Expression
  | .symbol id => .symbol id
  | .pi => .constant .pi
  | .e => .constant .e
  | .imaginaryUnit => .constant .imaginaryUnit
  | .root q index => (Expression.ofRat q).rootOf index
  | .radical f index => f.expression.rootOf index
  | .apply f args => .apply f.code (Form.expressions args)
  | .power base exponent =>
    .power (if base = Form.e then .constant .e else base.expression) exponent.expression
  | .reciprocal f => .quotient (.integer 1) f.expression

/-- The factors of a monomial as expressions. -/
def Monomial.expressions : Monomial → List Expression.Factor
  | ⟨factors⟩ => Monomial.factorExpressions factors

/-- A list of factors as expressions. -/
def Monomial.factorExpressions : List (Atom × Int) → List Expression.Factor
  | [] => []
  | (a, k) :: rest => (a.expression, k) :: Monomial.factorExpressions rest

/-- A form as a sum of fractions. -/
def Form.expression : Form → Expression
  | ⟨terms⟩ => Expression.sumOfTerms (Form.termExpressions terms)

/-- The terms of a form, with their factors as expressions. -/
def Form.termExpressions : List (Monomial × Rat) → List (Rat × List Expression.Factor)
  | [] => []
  | (m, q) :: rest => (q, m.expressions) :: Form.termExpressions rest

/-- A list of forms as expressions. -/
def Form.expressions : List Form → List Expression
  | [] => []
  | f :: fs => f.expression :: Form.expressions fs

end

end Resolvent

import Resolvent.Numeric.Functions
import Resolvent.Number.Double
import Resolvent.Expression.Expansion

/-!
# Evaluation of expressions

The value of an expression in complex doubles, with an unknown bound to a number.  Definitions are
followed as expansion follows them: parameters stand for the values of arguments, variables for
their values unless the mode keeps them symbolic, and substitutions are nested at most 32 deep.
What has no value is the number that is none.
-/

namespace Resolvent.Expression

/-- What evaluation depends on besides the expression. -/
structure Surroundings where
  /-- The definitions. -/
  definitions : Definitions
  /-- Which definitions are replaced. -/
  mode : Mode
  /-- The unit of angles and the format of complex numbers. -/
  preferences : Preferences

/-- The parameters in scope, the innermost first, with their values. -/
abbrev Bindings := List (Nat × Complex)

/-- The value of a symbol. -/
def evaluateSymbol (env : Surroundings) (nested : Bindings → Expression → Complex)
    (scope : Bindings) (id : Nat) : Complex :=
  match scope.lookup id with
  | some z => z
  | none =>
    match if env.mode = .replaceAll then env.definitions.value? id else none with
    | some value => nested scope value
    | none => Complex.nan

/-- The value of a call, given that of its argument. -/
def evaluateCall (env : Surroundings) (nested : Bindings → Expression → Complex)
    (scope : Bindings) (name : Nat) (argument : Complex) : Complex :=
  match env.definitions.function? name with
  | none => Complex.nan
  | some (some parameter, body) => nested ((parameter, argument) :: scope) body
  | some (none, body) => nested scope body

mutual

/-- The value of an expression; `nested` evaluates the values and bodies of definitions. -/
def evaluateWith (env : Surroundings) (nested : Bindings → Expression → Complex)
    (scope : Bindings) : Expression → Complex
  | integer n => Complex.ofReal (Double.ofInteger n)
  | fraction q => Complex.ofReal (Double.ofRational q)
  | float bits => Complex.ofReal (Float.ofBits bits)
  | symbol id => evaluateSymbol env nested scope id
  | constant .pi => Complex.ofReal piFloat
  | constant .e => Complex.ofReal eFloat
  | constant .imaginaryUnit => Complex.i
  | undefined | unreal | matrix _ _ _ => Complex.nan
  | sum args => Complex.sum (evaluateAllWith env nested scope args)
  | product args => Complex.product (evaluateAllWith env nested scope args)
  | power base exponent =>
    Complex.power env.preferences.complexFormat (evaluateWith env nested scope base)
      (evaluateWith env nested scope exponent)
  | opposite arg => Complex.neg (evaluateWith env nested scope arg)
  | quotient numerator denominator =>
    let d := evaluateWith env nested scope denominator
    if d.isZero then Complex.nan else Complex.div (evaluateWith env nested scope numerator) d
  | apply code args =>
    Complex.applyCode env.preferences.angleUnit env.preferences.complexFormat code
      (evaluateAllWith env nested scope args)
  | call name arg => evaluateCall env nested scope name (evaluateWith env nested scope arg)

/-- The values of a list of expressions. -/
def evaluateAllWith (env : Surroundings) (nested : Bindings → Expression → Complex)
    (scope : Bindings) : List Expression → List Complex
  | [] => []
  | e :: es => evaluateWith env nested scope e :: evaluateAllWith env nested scope es

end

/-- The value of an expression with substitutions nested at most `depth` deep. -/
def evaluateAt (env : Surroundings) : Nat → Bindings → Expression → Complex
  | 0 => evaluateWith env fun _ _ => Complex.nan
  | depth + 1 => evaluateWith env (evaluateAt env depth)

/-- The value of an expression with an unknown bound to a number. -/
def evaluate (env : Surroundings) (unknown : Nat) (x : Float) (e : Expression) : Complex :=
  evaluateAt env maxSubstitutionDepth [(unknown, Complex.ofReal x)] e

end Resolvent.Expression

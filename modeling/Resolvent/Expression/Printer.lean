import Resolvent.Expression.Arena
import Resolvent.Number.Digits

/-!
# Texts of expressions

An expression is written as on a calculator: `π`, `ℯ` and `𝐢` for the constants, `√(…)` for square
roots, and no sign for a product after a number or before `𝐢`.  `Expression.text` takes the names
of the symbols as a parameter.
-/

namespace Resolvent

/-- The sign of a constant. -/
def Constant.text : Constant → String
  | .pi => "π"
  | .e => "ℯ"
  | .imaginaryUnit => "𝐢"

namespace Expression

/-- A number written out that is less than zero. -/
def isNegativeLiteral : Expression → Bool
  | integer n => n < 0
  | fraction q => q < 0
  | float bits => Float.ofBits bits < 0.0
  | _ => false

/-- The text of the expression begins with a minus sign, as a term of a sum. -/
def startsWithMinus : Expression → Bool
  | opposite _ => true
  | product (first :: _) => isNegativeLiteral first
  | product [] => false
  | e => isNegativeLiteral e

/-- A sum, or a quotient. -/
def isSumOrQuotient : Expression → Bool
  | sum _ | quotient _ _ => true
  | _ => false

/-- An expression that needs parentheses as a factor. -/
def isCompoundFactor : Expression → Bool
  | sum _ | opposite _ | quotient _ _ | fraction _ => true
  | _ => false

/-- An expression that needs parentheses behind a minus sign. -/
def isCompoundOpposite : Expression → Bool
  | sum _ | opposite _ => true
  | e => isNegativeLiteral e

/-- An expression that needs parentheses below a fraction bar. -/
def isCompoundDenominator : Expression → Bool
  | fraction _ => true
  | apply _ _ | call _ _ => false
  | e => !e.isAtom

/-- An expression that needs parentheses as base or exponent. -/
def isCompoundPower (e : Expression) : Bool := !e.isAtom || e.isNegativeLiteral

/-- An expression that may follow a number without a sign between them. -/
def followsNumber : Expression → Bool
  | constant _ | apply _ _ | symbol _ => true
  | power base _ => !base.isNumber
  | _ => false

/-- Whole numbers and doubles that are not negative. -/
def isPlainNumeral : Expression → Bool
  | integer n => !(n < 0)
  | float bits => !(Float.ofBits bits < 0.0)
  | _ => false

/-- Two neighbouring factors are written without a sign: `2π`, `3√(2)`, `x𝐢`. -/
def juxtaposes (previous : Expression) : Expression → Bool
  | constant .imaginaryUnit => true
  | next => previous.isPlainNumeral && next.followsNumber

/-- Puts parentheses around a text if it needs them. -/
def grouped (compound : Bool) (text : String) : String :=
  if compound then "(" ++ text ++ ")" else text

/-- The terms of a sum, with the plus signs that they need. -/
def joinTerms : List (Expression × String) → String
  | [] => ""
  | (_, first) :: rest => first ++ rest.foldl
      (fun out (e, text) => out ++ (if e.startsWithMinus then text else "+" ++ text)) ""

/-- The factors of a product, with the signs that they need. -/
def joinFactors (previous : Option Expression) : List (Expression × String) → String
  | [] => ""
  | (e, text) :: rest =>
    let sign := match previous with
      | none => ""
      | some p => if p.juxtaposes e then "" else "×"
    sign ++ grouped e.isCompoundFactor text ++ joinFactors (some e) rest

/-- Cuts a list into pieces of a length; the last one may be shorter. -/
def pieces {α : Type} (width : Nat) : Nat → List α → List (List α)
  | 0, _ => []
  | _ + 1, [] => []
  | fuel + 1, xs => xs.take width :: pieces width fuel (xs.drop width)

/-- The rows of a matrix, each in brackets. -/
def joinRows (columns : Nat) (entries : List String) : String :=
  let width := if columns = 0 then 1 else columns
  let rows := pieces width entries.length entries
  "[" ++ String.join (rows.map fun row => "[" ++ String.intercalate "," row ++ "]") ++ "]"

/-- Arguments in parentheses. -/
def joinArguments (args : List String) : String := "(" ++ String.intercalate "," args ++ ")"

/-- The sign of a built-in function in texts. -/
def functionText (code : Nat) : String :=
  match Builtin.ofCode? code with
  | some .sqrt => "√"
  | some f => f.name
  | none => "?"

mutual

/-- The text of an expression, given the names of the symbols. -/
def text (name : Nat → String) : Expression → String
  | integer n => toString n
  | fraction q => Rational.text q
  | float bits => Double.calculatorText (Float.ofBits bits)
  | symbol id => name id
  | constant c => c.text
  | undefined => "undef"
  | unreal => "nonreal"
  | sum args => joinTerms (args.zip (texts name args))
  | product args => joinFactors none (args.zip (texts name args))
  | power base exponent =>
    grouped base.isCompoundPower (text name base) ++ "^" ++
      grouped exponent.isCompoundPower (text name exponent)
  | opposite arg => "-" ++ grouped arg.isCompoundOpposite (text name arg)
  | quotient numerator denominator =>
    grouped numerator.isSumOrQuotient (text name numerator) ++ "/" ++
      grouped denominator.isCompoundDenominator (text name denominator)
  | apply code args => functionText code ++ joinArguments (texts name args)
  | call id arg => name id ++ joinArguments [text name arg]
  | matrix _ columns entries => joinRows columns (texts name entries)

/-- The texts of a list of expressions. -/
def texts (name : Nat → String) : List Expression → List String
  | [] => []
  | e :: es => text name e :: texts name es

end

theorem texts_eq_map (name : Nat → String) (es : List Expression) :
    texts name es = es.map (text name) := by
  induction es with
  | nil => rfl
  | cons e es ih => simp [texts, ih]

end Expression

/-- The text of a stored expression. -/
def Arena.text (A : Arena) (h : Handle) : String := (A.expression h).text A.symbolText

end Resolvent

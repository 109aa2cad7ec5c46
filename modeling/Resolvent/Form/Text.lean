import Resolvent.Form.Parts

/-!
# Texts of forms

The text of a form lists its terms in their order, each with its coefficient and all its factors and
exponents written out.
-/

namespace Resolvent

mutual

/-- The text of an atom. -/
def Atom.text (name : Nat → String) : Atom → String
  | .symbol id => name id
  | .pi => "π"
  | .e => "ℯ"
  | .imaginaryUnit => "𝐢"
  | .root q index => "root[" ++ Rational.text q ++ ", " ++ toString index ++ "]"
  | .radical f index => "radical[" ++ f.text name ++ ", " ++ toString index ++ "]"
  | .apply f args => f.name ++ "[" ++ String.intercalate ", " (Form.textAll name args) ++ "]"
  | .power a b => "power[" ++ a.text name ++ ", " ++ b.text name ++ "]"
  | .reciprocal f => "reciprocal[" ++ f.text name ++ "]"

/-- The text of a monomial, behind a coefficient. -/
def Monomial.text (name : Nat → String) : Monomial → String
  | ⟨factors⟩ => Monomial.factorsText name factors

/-- The text of a list of factors, behind a coefficient. -/
def Monomial.factorsText (name : Nat → String) : List (Atom × Int) → String
  | [] => ""
  | (a, k) :: rest =>
    "*" ++ a.text name ++ "^" ++ toString k ++ Monomial.factorsText name rest

/-- The text of a form. -/
def Form.text (name : Nat → String) : Form → String
  | ⟨[]⟩ => "0"
  | ⟨terms⟩ => String.intercalate " + " (Form.termTexts name terms)

/-- The texts of a list of terms. -/
def Form.termTexts (name : Nat → String) : List (Monomial × Rat) → List String
  | [] => []
  | (m, q) :: rest => (Rational.text q ++ m.text name) :: Form.termTexts name rest

/-- The texts of a list of forms. -/
def Form.textAll (name : Nat → String) : List Form → List String
  | [] => []
  | f :: fs => f.text name :: Form.textAll name fs

end

end Resolvent

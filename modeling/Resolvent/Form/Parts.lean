import Resolvent.Form.Basic

/-!
# Parts of forms

Questions about forms that need no arithmetic: the exponent of an atom, the symbols that occur, the
depth of nesting, and whether a form is a constant or a single term.
-/

namespace Resolvent

namespace Monomial

/-- The empty product. -/
def one : Monomial := ⟨[]⟩

/-- The product is empty. -/
def isOne (m : Monomial) : Bool := m.factors.isEmpty

/-- The exponent of an atom, zero if it is absent. -/
def exponentOf (m : Monomial) (a : Atom) : Int :=
  match m.factors.find? fun x => decide (x.1 = a) with
  | some (_, k) => k
  | none => 0

/-- The product without an atom. -/
def without (m : Monomial) (a : Atom) : Monomial := ⟨m.factors.filter fun x => decide (x.1 ≠ a)⟩

end Monomial

mutual

/-- A symbol occurs in an atom. -/
def Atom.mentions (id : Nat) : Atom → Bool
  | .symbol s => s == id
  | .radical f _ => f.mentions id
  | .apply _ args => Form.anyMentions id args
  | .power a b => a.mentions id || b.mentions id
  | .reciprocal f => f.mentions id
  | .pi | .e | .imaginaryUnit | .root _ _ => false

/-- A symbol occurs in a monomial. -/
def Monomial.mentions (id : Nat) : Monomial → Bool
  | ⟨factors⟩ => Monomial.factorsMention id factors

/-- A symbol occurs in a list of factors. -/
def Monomial.factorsMention (id : Nat) : List (Atom × Int) → Bool
  | [] => false
  | (a, _) :: rest => a.mentions id || Monomial.factorsMention id rest

/-- A symbol occurs in a form. -/
def Form.mentions (id : Nat) : Form → Bool
  | ⟨terms⟩ => Form.termsMention id terms

/-- A symbol occurs in a list of terms. -/
def Form.termsMention (id : Nat) : List (Monomial × Rat) → Bool
  | [] => false
  | (m, _) :: rest => m.mentions id || Form.termsMention id rest

/-- A symbol occurs in some form of a list. -/
def Form.anyMentions (id : Nat) : List Form → Bool
  | [] => false
  | f :: fs => f.mentions id || Form.anyMentions id fs

end

mutual

/-- The symbols of an atom in the order of their first occurrence, after those already known. -/
def Atom.collectSymbols (known : List Nat) : Atom → List Nat
  | .symbol s => if known.contains s then known else known ++ [s]
  | .radical f _ => f.collectSymbols known
  | .apply _ args => Form.collectAllSymbols known args
  | .power a b => b.collectSymbols (a.collectSymbols known)
  | .reciprocal f => f.collectSymbols known
  | .pi | .e | .imaginaryUnit | .root _ _ => known

/-- The symbols of a monomial, after those already known. -/
def Monomial.collectSymbols (known : List Nat) : Monomial → List Nat
  | ⟨factors⟩ => Monomial.collectFactorSymbols known factors

/-- The symbols of a list of factors, after those already known. -/
def Monomial.collectFactorSymbols (known : List Nat) : List (Atom × Int) → List Nat
  | [] => known
  | (a, _) :: rest => Monomial.collectFactorSymbols (a.collectSymbols known) rest

/-- The symbols of a form, after those already known. -/
def Form.collectSymbols (known : List Nat) : Form → List Nat
  | ⟨terms⟩ => Form.collectTermSymbols known terms

/-- The symbols of a list of terms, after those already known. -/
def Form.collectTermSymbols (known : List Nat) : List (Monomial × Rat) → List Nat
  | [] => known
  | (m, _) :: rest => Form.collectTermSymbols (m.collectSymbols known) rest

/-- The symbols of a list of forms, after those already known. -/
def Form.collectAllSymbols (known : List Nat) : List Form → List Nat
  | [] => known
  | f :: fs => Form.collectAllSymbols (f.collectSymbols known) fs

end

mutual

/-- How deep forms are nested in an atom. -/
def Atom.depth : Atom → Nat
  | .radical f _ => f.depth + 1
  | .apply _ args => Form.depthAll args + 1
  | .power a b => (if a.depth < b.depth then b.depth else a.depth) + 1
  | .reciprocal f => f.depth + 1
  | .symbol _ | .pi | .e | .imaginaryUnit | .root _ _ => 0

/-- How deep forms are nested in a monomial. -/
def Monomial.depth : Monomial → Nat
  | ⟨factors⟩ => Monomial.depthFactors factors

/-- How deep forms are nested in a list of factors. -/
def Monomial.depthFactors : List (Atom × Int) → Nat
  | [] => 0
  | (a, _) :: rest =>
    let d := a.depth
    let r := Monomial.depthFactors rest
    if d < r then r else d

/-- How deep forms are nested in a form. -/
def Form.depth : Form → Nat
  | ⟨terms⟩ => Form.depthTerms terms

/-- How deep forms are nested in a list of terms. -/
def Form.depthTerms : List (Monomial × Rat) → Nat
  | [] => 0
  | (m, _) :: rest =>
    let d := m.depth
    let r := Form.depthTerms rest
    if d < r then r else d

/-- How deep forms are nested in a list of forms. -/
def Form.depthAll : List Form → Nat
  | [] => 0
  | f :: fs =>
    let d := f.depth
    let r := Form.depthAll fs
    if d < r then r else d

end

namespace Form

/-- The number of terms. -/
def size (f : Form) : Nat := f.terms.length

/-- The empty sum. -/
def zero : Form := ⟨[]⟩

/-- The sum is empty. -/
def isZero (f : Form) : Bool := f.terms.isEmpty

/-- A constant. -/
def ofRat (q : Rat) : Form := if q = 0 then zero else ⟨[(Monomial.one, q)]⟩

/-- The constant one. -/
def one : Form := ofRat 1

/-- The value of a constant. -/
def toRat? (f : Form) : Option Rat :=
  match f.terms with
  | [] => some 0
  | [(m, q)] => if m.isOne then some q else none
  | _ => none

/-- The form is the constant one. -/
def isOne (f : Form) : Bool := f.toRat? == some 1

/-- The only term of a form of one term. -/
def singleTerm? (f : Form) : Option (Monomial × Rat) :=
  match f.terms with
  | [t] => some t
  | _ => none

/-- The coefficient of the first term, zero if there is none. -/
def leadingCoefficient (f : Form) : Rat :=
  match f.terms with
  | [] => 0
  | (_, q) :: _ => q

/-- The symbols of a form, in the order of their first occurrence. -/
def symbols (f : Form) : List Nat := f.collectSymbols []

/-- A symbol occurs in the form. -/
def hasSymbols (f : Form) : Bool := !f.symbols.isEmpty

/-- The imaginary unit is a factor of some term. -/
def hasImaginaryUnit (f : Form) : Bool :=
  f.terms.any fun t => t.1.exponentOf .imaginaryUnit != 0

theorem ofRat_zero : ofRat 0 = zero := if_pos rfl

theorem toRat?_ofRat (q : Rat) : (ofRat q).toRat? = some q := by
  unfold ofRat
  split
  · next h => simp [zero, toRat?, h]
  · simp [toRat?, Monomial.one, Monomial.isOne]

theorem isZero_iff {f : Form} : f.isZero = true ↔ f = zero := by
  obtain ⟨terms⟩ := f
  simp [isZero, zero]

end Form

end Resolvent

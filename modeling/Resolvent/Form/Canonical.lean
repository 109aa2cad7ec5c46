import Resolvent.Form.OfExpression
import Resolvent.Rewriting.Simplifier
import Resolvent.Term.OfArena

/-!
# Canonical forms of stored expressions

A stored expression is expanded, its functions are simplified by identities, and the canonical form
of the result is built.  The expression depends on the symbols that its form mentions, and on those
in the arguments of user functions even where the body of the function ignores its argument.
-/

namespace Resolvent

/-- What the canonical form of an expression depends on besides the expression. -/
structure Canonizer where
  /-- The definitions of the user. -/
  context : Context Handle := {}
  /-- Which definitions are replaced. -/
  mode : Mode := .replaceAll
  /-- The unit of angles and the format of complex numbers. -/
  preferences : Preferences := {}
  /-- What simplifies functions by identities. -/
  simplifier : Simplifier
  /-- When it is asked. -/
  moment : Nat := 0

/-- The term that a term is simplified to. -/
def Canonizer.simplify (c : Canonizer) (t : Term) : Term := c.simplifier.simplify c.moment t

/-- The same at the next moment. -/
def Canonizer.later (c : Canonizer) : Canonizer := { c with moment := c.moment + 1 }

/-- A canonical form with the symbols it depends on. -/
structure Canonical where
  /-- The form. -/
  form : Form
  /-- The symbols, in the order in which they were met. -/
  symbols : List Nat
  deriving DecidableEq

namespace Build

/-- Stores the expanded expression and records the symbols met. -/
def expand (Δ : Definitions) (mode : Mode) (e : Expression) :
    BuildT CanonicalError (Handle × Encounters) := fun A =>
  match e.expand Δ mode (A, {}) with
  | (.ok h, (A, met)) => (.ok (h, met), A)
  | (.error x, (A, _)) => (.error x, A)

/-- Stores an equal term in place of the expression it comes from; a term that stands for no
expression changes nothing. -/
def replaceBy (h : Handle) (placeholders : List Handle) (t : Term) : Build Handle := fun A =>
  match t.build placeholders A with
  | (.ok r, A) => (.ok r, A)
  | (.error (.exhausted x), A) => (.error x, A)
  | (.error _, A) => (.ok h, A)

/-- Simplifies the functions in a stored expression by identities. -/
def simplifyFunctions (simplify : Term → Term) (h : Handle) : Build Handle := do
  let A ← getThe Arena
  if (A.expression h).isTranscendental then
    let (t, placeholders) := A.term h
    let best := simplify t
    if best = t then return h else replaceBy h placeholders best
  else return h

/-- The canonical form of a stored expression. -/
def canonical (c : Canonizer) (h : Handle) : BuildT CanonicalError Canonical := do
  let A ← getThe Arena
  let (expanded, met) ← expand (c.context.definitions A) c.mode (A.expression h)
  let simplified ← Build.lift .exhausted (simplifyFunctions c.simplify expanded)
  let A ← getThe Arena
  let form ← ((A.expression simplified).form c.preferences : Except CanonicalError Form)
  return ⟨form, met.met.filter fun s => form.mentions s || met.arguments.contains s⟩

end Build

/-- There are more unknowns than admitted. -/
structure TooManySymbols where
  /-- The largest number of unknowns. -/
  most : Nat
  deriving DecidableEq, Repr

/-- What to tell the user. -/
def TooManySymbols.message (x : TooManySymbols) : String :=
  "more than " ++ toString x.most ++ " unknowns"

/-- Adds symbols with a property to those known, up to a number of them; with the error come the
symbols that found a place. -/
def collectUnknowns (keep : Nat → Bool) (most : Nat) :
    List Nat → List Nat → List Nat × Option TooManySymbols
  | [], known => (known, none)
  | s :: rest, known =>
    if !keep s || known.contains s then collectUnknowns keep most rest known
    else if most ≤ known.length then (known, some ⟨most⟩)
    else collectUnknowns keep most rest (known ++ [s])

end Resolvent

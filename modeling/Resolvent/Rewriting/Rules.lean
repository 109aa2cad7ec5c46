import Resolvent.Term.Basic

/-!
# Rules

A pattern is a term with variables.  A rule says that the instances of its two sides are equal, and
is used from the left to the right.  `Rules.all` are the identities that terms are simplified by:
those of sums and products, of the angle functions and of exponentials and logarithms.
-/

namespace Resolvent

/-- A term with variables. -/
inductive Pattern where
  /-- A variable, by number. -/
  | hole (v : Nat)
  /-- A head over patterns. -/
  | node (head : Head) (args : List Pattern)

/-- An identity of terms. -/
structure Rule where
  /-- What is looked for. -/
  lhs : Pattern
  /-- What it is equal to. -/
  rhs : Pattern

namespace Pattern

/-- An integer. -/
def number (n : Int) : Pattern := node (.number n) []

/-- A symbol. -/
def symbol (name : String) : Pattern := node (.symbol name) []

/-- A sum. -/
def add (a b : Pattern) : Pattern := node (.op .add) [a, b]

/-- A difference. -/
def sub (a b : Pattern) : Pattern := node (.op .sub) [a, b]

/-- A product. -/
def mul (a b : Pattern) : Pattern := node (.op .mul) [a, b]

/-- A quotient. -/
def div (a b : Pattern) : Pattern := node (.op .div) [a, b]

/-- An opposite. -/
def neg (a : Pattern) : Pattern := node (.op .neg) [a]

/-- A power. -/
def pow (a b : Pattern) : Pattern := node (.op .pow) [a, b]

/-- A square. -/
def square (a : Pattern) : Pattern := pow a (number 2)

/-- A built-in function of one argument. -/
def call (f : Builtin) (a : Pattern) : Pattern := node (.op (.apply f)) [a]

/-- The head of a pattern that is no variable. -/
def head? : Pattern → Option Head
  | hole _ => none
  | node head _ => some head

mutual

/-- The value of a pattern, given the values of its variables and of heads over values. -/
def fold {α : Type} (f : Head → List α → α) (value : Nat → α) : Pattern → α
  | hole v => value v
  | node head args => f head (foldAll f value args)

/-- The values of a list of patterns. -/
def foldAll {α : Type} (f : Head → List α → α) (value : Nat → α) : List Pattern → List α
  | [] => []
  | p :: ps => fold f value p :: foldAll f value ps

end

end Pattern

/-! ### Identities -/

namespace Rules

open Pattern

/-- The first variable of a rule. -/
def a : Pattern := .hole 0

/-- The second variable of a rule. -/
def b : Pattern := .hole 1

/-- The third variable of a rule. -/
def c : Pattern := .hole 2

/-- Identities of sums, products and opposites. -/
def arithmetic : List Rule := [
  ⟨add a (number 0), a⟩,
  ⟨mul a (number 1), a⟩,
  ⟨mul a (number 0), number 0⟩,
  ⟨neg (neg a), a⟩,
  ⟨sub a b, add a (neg b)⟩,
  ⟨add a b, add b a⟩,
  ⟨mul a b, mul b a⟩,
  ⟨add (add a b) c, add a (add b c)⟩,
  ⟨add a (add b c), add (add a b) c⟩,
  ⟨mul (mul a b) c, mul a (mul b c)⟩,
  ⟨mul a (mul b c), mul (mul a b) c⟩,
  ⟨add (mul a b) (mul a c), mul a (add b c)⟩,
  ⟨add (neg a) (neg b), neg (add a b)⟩]

/-- Identities of the angle functions and their inverses. -/
def angles : List Rule := [
  ⟨add (square (call .sin a)) (square (call .cos a)), number 1⟩,
  ⟨call .sin (number 0), number 0⟩,
  ⟨call .cos (number 0), number 1⟩,
  ⟨call .tan (number 0), number 0⟩,
  ⟨call .sin (neg a), neg (call .sin a)⟩,
  ⟨call .cos (neg a), call .cos a⟩,
  ⟨call .tan (neg a), neg (call .tan a)⟩,
  ⟨div (call .sin a) (call .cos a), call .tan a⟩,
  ⟨call .sin (call .asin a), a⟩,
  ⟨call .cos (call .acos a), a⟩,
  ⟨call .tan (call .atan a), a⟩]

/-- Identities of exponentials and logarithms, and squares of square roots. -/
def exponentials : List Rule := [
  ⟨call .exp (number 0), number 1⟩,
  ⟨call .ln (number 1), number 0⟩,
  ⟨call .log10 (number 1), number 0⟩,
  ⟨call .ln (symbol "ℯ"), number 1⟩,
  ⟨call .exp (call .ln a), a⟩,
  ⟨call .ln (call .exp a), a⟩,
  ⟨mul (call .exp a) (call .exp b), call .exp (add a b)⟩,
  ⟨div (number 1) (call .exp a), call .exp (neg a)⟩,
  ⟨square (call .sqrt a), a⟩,
  ⟨square (node (.op (.apply .root)) [a, number 2]), a⟩]

/-- All identities, in the order in which they are tried. -/
def all : List Rule := arithmetic ++ angles ++ exponentials

end Rules

end Resolvent

import Resolvent.Rewriting.Rules

/-!
# Simplifiers

Terms are simplified by a rewriter, which finds a cheapest term among those that are equal to a term
by some rules.  How it does so is left open: a rewriter is any function of the limits within which
it works, the rules, the moment at which it is asked and the term.  The moment matters because the
time for an answer is limited.  What is assumed of a rewriter is said where it is used.
-/

namespace Resolvent

/-- How far rules are followed. -/
structure SaturationLimits where
  /-- The largest number of rounds. -/
  iterations : Nat := 30
  /-- The number of nodes beyond which no rule is applied. -/
  nodes : Nat := 10000
  /-- The time after which no rule is applied. -/
  milliseconds : Nat := 500
  deriving DecidableEq, Repr

/-- What finds cheap equal terms: the limits, the rules, the moment and the term give the answer. -/
abbrev Rewriter := SaturationLimits → List Rule → Nat → Term → Term

/-- A rewriter with the limits within which it follows the identities. -/
structure Simplifier where
  /-- The limits. -/
  limits : SaturationLimits := {}
  /-- The rewriter. -/
  rewriter : Rewriter

/-- The answer to a term at a moment. -/
def Simplifier.simplify (s : Simplifier) (moment : Nat) (t : Term) : Term :=
  s.rewriter s.limits Rules.all moment t

end Resolvent

import Resolvent.Rewriting.Matching
import Resolvent.Rewriting.Simplifier

/-!
# Saturation and the cheapest equal term

Saturating an equality graph applies every rule to all its instances, again and again, until nothing
changes or a limit is reached.  A rule with too many instances at once rests for some rounds; each
time it does, the number that it may have and the length of its rest double.

Every class of a graph has a cheapest term.  Its root is found by improving the choices of nodes
until nothing changes, and the term is then written down, operands before their users and the last
operand first.  `Rewriter.saturation` is the rewriter that does this with a saturated graph.
-/

namespace Resolvent

namespace EqualityGraph

/-- A rule with the rests it has had. -/
structure Turn where
  /-- The rule. -/
  rule : Rule
  /-- How many times it has had too many instances. -/
  rests : Nat := 0
  /-- The round before which it rests. -/
  restsUntil : Nat := 0

/-- The number of instances that a rule may have at once. -/
def Turn.limit (t : Turn) : Nat := 1000 * Nat.pow 2 t.rests

/-- Sends a rule to rest. -/
def Turn.rest (t : Turn) (round : Nat) : Turn :=
  { t with rests := t.rests + 1, restsUntil := round + 5 * Nat.pow 2 t.rests }

/-- The instances that a rule has in a round; it has none while it rests. -/
def Turn.search (g : EqualityGraph) (round : Nat) (t : Turn) : List Match × Turn :=
  if round < t.restsUntil then ([], t)
  else
    match g.search? t.limit t.rule.lhs with
    | some ms => (ms, t)
    | none => ([], t.rest round)

/-- Applies rules to their instances one after the other, until there are too many nodes.  Says
whether any classes were joined. -/
def applyRules (limits : SaturationLimits) :
    List (List Match × Turn) → Bool → EqualityGraph → Bool × EqualityGraph
  | [], changed, g => (changed, g)
  | (ms, t) :: rest, changed, g =>
    let (joined, g) := applyRule t.rule.rhs ms g
    if limits.nodes < g.size then (changed || joined, g)
    else applyRules limits rest (changed || joined) g

/-- The first round in which a resting rule is back, if some rule rests. -/
def firstReturn? (round : Nat) (turns : List Turn) : Option Nat :=
  ((turns.map Turn.restsUntil).filter fun r => decide (round < r)).min?

/-- Shortens all rests so that the first ends in this round. -/
def shortenRests (round first : Nat) (turns : List Turn) : List Turn :=
  turns.map fun t =>
    if round < t.restsUntil then { t with restsUntil := t.restsUntil - (first - round) } else t

/-- Applies the rules in rounds. -/
def saturateLoop (limits : SaturationLimits) :
    Nat → Nat → List Turn → EqualityGraph → EqualityGraph
  | 0, _, _, g => g
  | fuel + 1, round, turns, g =>
    if limits.nodes < g.size then g
    else
      let g := g.reindex
      let found := turns.map (Turn.search g round)
      let turns := found.map Prod.snd
      let (changed, g) := applyRules limits found false g
      let full := decide (limits.nodes < g.size)
      let g := g.rebuild
      if full then g
      else if changed then saturateLoop limits fuel (round + 1) turns g
      else
        match firstReturn? round turns with
        | none => g
        | some first => saturateLoop limits fuel (round + 1) (shortenRests round first turns) g

/-- Applies the rules until nothing changes or a limit is reached. -/
def saturate (limits : SaturationLimits) (rules : List Rule) (g : EqualityGraph) : EqualityGraph :=
  saturateLoop limits limits.iterations 0 (rules.map fun rule => { rule }) g.rebuild

/-! ### The cheapest equal term -/

/-- The best node known for a class. -/
structure Choice where
  /-- The cost of its term. -/
  cost : Nat
  /-- The node. -/
  node : Cell
  deriving DecidableEq, Repr

/-- A cost with those of the choices of classes, if all have one. -/
def addCosts? (choices : Array (Option Choice)) : List Nat → Nat → Option Nat
  | [], cost => some cost
  | i :: is, cost =>
    match choices[i]? with
    | some (some choice) => addCosts? choices is (addCost cost choice.cost)
    | _ => none

/-- The cost of the term of a node, if all its operands have a choice. -/
def nodeCost? (choices : Array (Option Choice)) (c : Cell) : Option Nat :=
  addCosts? choices c.operands c.head.cost

/-- The cheapest node of a list, after a choice made already. -/
def cheapest (choices : Array (Option Choice)) (best : Option Choice) (cs : List Cell) :
    Option Choice :=
  cs.foldl (fun best c =>
    match nodeCost? choices c, best with
    | some cost, some known => if cost < known.cost then some ⟨cost, c⟩ else best
    | some cost, none => some ⟨cost, c⟩
    | none, _ => best) best

/-- Improves the choice of one class, and says whether it could.  A choice is left only for a cheaper
one. -/
def improveClass (g : EqualityGraph) (state : Bool × Array (Option Choice)) (i : Nat) :
    Bool × Array (Option Choice) :=
  let (changed, choices) := state
  let known := choices[i]?.join
  let best := cheapest choices known (g.nodes i)
  if best.map Choice.cost = known.map Choice.cost then (changed, choices)
  else (true, choices.setIfInBounds i best)

/-- Improves choices until nothing changes. -/
def improve (g : EqualityGraph) : Nat → Array (Option Choice) → Array (Option Choice)
  | 0, choices => choices
  | fuel + 1, choices =>
    match (List.range g.classes.size).foldl g.improveClass (false, choices) with
    | (true, choices) => improve g fuel choices
    | (false, choices) => choices

/-- The best node of each class.  A cheapest term has no class twice on one branch, so as many
rounds as there are classes are enough. -/
def choices (g : EqualityGraph) : Array (Option Choice) :=
  g.improve (g.classes.size + 1) (Array.replicate g.classes.size none)

/-- A term under construction, with the places of the classes written so far. -/
structure Writing where
  /-- The cells. -/
  term : Term := {}
  /-- The places of the classes. -/
  places : Std.HashMap Nat Nat := ∅

/-- Appends a node whose operands have places. -/
def Writing.push (s : Writing) (i : Nat) (c : Cell) : Writing :=
  let (place, term) :=
    s.term.push { c with operands := c.operands.map fun k => s.places[k]?.getD 0 }
  { term := term, places := s.places.insert i place }

/-- Writes the chosen term of a class, unless it has a place. -/
def write (choices : Array (Option Choice)) : Nat → Nat → Writing → Writing
  | 0, _, s => s
  | fuel + 1, i, s =>
    if s.places.contains i then s
    else
      match choices[i]?.join with
      | none => s
      | some choice =>
        (choice.node.operands.foldr (write choices fuel) s).push i choice.node

/-- The cheapest term of a class. -/
def extract (g : EqualityGraph) (i : Nat) : Term :=
  (write g.choices (g.classes.size + 1) i {}).term

end EqualityGraph

namespace Term

/-- The cheapest term that is equal to a term by some rules, followed within limits. -/
def minimize (limits : SaturationLimits) (rules : List Rule) (t : Term) : Term :=
  let (root, g) := ({} : EqualityGraph).addTerm t
  let g := g.saturate limits rules
  g.extract (g.find root)

end Term

/-- The rewriter that extracts the cheapest term from a saturated graph.  It does not look at the
clock. -/
def Rewriter.saturation : Rewriter := fun limits rules _ t => t.minimize limits rules

/-- The simplifier that extracts the cheapest term from a saturated graph. -/
def Simplifier.saturation (limits : SaturationLimits := {}) : Simplifier where
  limits := limits
  rewriter := .saturation

end Resolvent

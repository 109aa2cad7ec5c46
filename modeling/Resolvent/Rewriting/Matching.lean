import Resolvent.Rewriting.EqualityGraph
import Resolvent.Rewriting.Rules

/-!
# Matching in equality graphs

The instances of a pattern in an equality graph, as bindings of the variables to classes, and the
class of the instance of a pattern with a binding.
-/

namespace Resolvent.EqualityGraph

/-- The classes that variables stand for. -/
abbrev Binding := List (Nat × Nat)

/-- An instance of the left-hand side of a rule: the class it is in, with the binding. -/
abbrev Match := Nat × Binding

/-- The nodes of a class that may be instances of a head over patterns: those with the head and,
where the first pattern is a variable that stands for a class, with that class as first operand. -/
def candidates (g : EqualityGraph) (head : Head) (first : Pattern) (i : Nat) (s : Binding) :
    List Cell :=
  match first with
  | .hole v =>
    match s.lookup v with
    | some j => g.byFirst[(i, head, j)]?.getD []
    | none => (g.nodes i).filter fun c => c.head = head
  | .node _ _ => (g.nodes i).filter fun c => c.head = head

/-- The matches found so far, the latest first, and how many more are looked for. -/
structure Found where
  /-- The matches. -/
  items : List Match := []
  /-- How many more are looked for. -/
  room : Nat

/-- Records an instance of a pattern in a class. -/
def Found.record (i : Nat) (s : Binding) (found : Found) : Found :=
  ⟨(i, s) :: found.items, found.room - 1⟩

mutual

/-- Goes on with every binding with which a class has an instance of a pattern, each an extension of
a given one, until no more matches are looked for. -/
def matchClass (g : EqualityGraph) :
    Pattern → Nat → Binding → (Binding → Found → Found) → Found → Found
  | .hole v, i, s, next, found =>
    match s.lookup v with
    | some j => if i = j then next s found else found
    | none => next ((v, i) :: s) found
  | .node head [], i, s, next, found =>
    if g.lookup? ⟨head, []⟩ == some i then next s found else found
  | .node head (p :: ps), i, s, next, found =>
    (g.candidates head p i s).foldl (fun found c =>
      if found.room = 0 then found else matchAll g (p :: ps) c.operands s next found) found

/-- Goes on with every binding with which classes have instances of patterns, one by one. -/
def matchAll (g : EqualityGraph) :
    List Pattern → List Nat → Binding → (Binding → Found → Found) → Found → Found
  | [], [], s, next, found => next s found
  | p :: ps, i :: is, s, next, found =>
    matchClass g p i s (fun s found => matchAll g ps is s next found) found
  | _, _, _, _, found => found

end

/-- The instances of a pattern in an indexed graph, or none if they are more than a limit.  A rule
whose left-hand side is a variable has no use, and no instances. -/
def search? (g : EqualityGraph) (limit : Nat) : Pattern → Option (List Match)
  | .hole _ => some []
  | .node head args =>
    let found := (g.index[head]?.getD []).foldl
      (fun found i => matchClass g (.node head args) i [] (Found.record i) found)
      { room := limit + 1 }
    if found.room = 0 then none else some found.items.reverse

mutual

/-- The class of the instance of a pattern. -/
def instantiate (s : Binding) : Pattern → EqualityGraph → Nat × EqualityGraph
  | .hole v, g => ((s.lookup v).getD 0, g)
  | .node head args, g =>
    let (operands, g) := instantiateAll s args g
    g.add ⟨head, operands⟩

/-- The classes of the instances of a list of patterns. -/
def instantiateAll (s : Binding) : List Pattern → EqualityGraph → List Nat × EqualityGraph
  | [], g => ([], g)
  | p :: ps, g =>
    let (i, g) := instantiate s p g
    let (is, g) := instantiateAll s ps g
    (i :: is, g)

end

/-- Joins the class of a match to that of the right-hand side, and says whether they were apart. -/
def applyMatch (rhs : Pattern) (state : Bool × EqualityGraph) (m : Match) : Bool × EqualityGraph :=
  let (i, g) := instantiate m.2 rhs state.2
  let (changed, g) := g.join i m.1
  (state.1 || changed, g)

/-- Applies a rule to its matches, and says whether any classes were joined. -/
def applyRule (rhs : Pattern) (ms : List Match) (g : EqualityGraph) : Bool × EqualityGraph :=
  ms.foldl (applyMatch rhs) (false, g)

end Resolvent.EqualityGraph

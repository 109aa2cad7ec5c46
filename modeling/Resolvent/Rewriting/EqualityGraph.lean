import Std.Data.HashMap
import Std.Data.HashSet
import Resolvent.Term.Basic

/-!
# Equality graphs

An equality graph stores terms whose equality is known in classes.  A node is a head over classes,
so a class stands for all terms that its nodes stand for.  Adding a node that is there already gives
its class; joining two classes records that they are equal; and `rebuild` joins the classes of nodes
that have become the same, until equal operands give equal classes.
-/

namespace Resolvent

/-- A class of equal terms. -/
structure EqualityClass where
  /-- The nodes of the class. -/
  nodes : List Cell := []
  /-- The nodes that have the class as an operand, with the classes they are in. -/
  users : Array (Cell × Nat) := #[]
  /-- The numbers of the classes that have been joined to this one, and its own. -/
  members : List Nat := []

/-- A store of classes of equal terms. -/
structure EqualityGraph where
  /-- The class that each class has been joined to. -/
  leaders : Array Nat := #[]
  /-- The classes, each at the place of its number. -/
  classes : Array EqualityClass := #[]
  /-- The class of each node. -/
  classOf : Std.HashMap Cell Nat := ∅
  /-- The nodes whose operands may have been joined to others, the latest first. -/
  pending : List (Cell × Nat) := []
  /-- The classes that have a node with a head, in increasing order. -/
  index : Std.HashMap Head (List Nat) := ∅
  /-- The nodes of a class with a head and a first operand, in the order of the class. -/
  byFirst : Std.HashMap (Nat × Head × Nat) (List Cell) := ∅

namespace EqualityGraph

/-- The class that a class has been joined to. -/
def find (g : EqualityGraph) (i : Nat) : Nat := g.leaders[i]?.getD i

/-- A node over the classes that its operands have been joined to. -/
def canonical (g : EqualityGraph) (c : Cell) : Cell := { c with operands := c.operands.map g.find }

/-- The number of nodes that have a class. -/
def size (g : EqualityGraph) : Nat := g.classOf.size

/-- The nodes of a class. -/
def nodes (g : EqualityGraph) (i : Nat) : List Cell :=
  (g.classes[i]?.map EqualityClass.nodes).getD []

/-- The class of a node, if it has one. -/
def lookup? (g : EqualityGraph) (c : Cell) : Option Nat :=
  g.classOf[g.canonical c]?.map g.find

/-- Notes in the classes of the operands that a node uses them. -/
def addUses (classes : Array EqualityClass) (c : Cell) (i : Nat) : Array EqualityClass :=
  c.operands.foldl (fun classes operand =>
    classes.modify operand fun k => { k with users := k.users.push (c, i) }) classes

/-- A new class of one node. -/
def addClass (g : EqualityGraph) (c : Cell) : Nat × EqualityGraph :=
  let i := g.leaders.size
  (i,
    { g with
      leaders := g.leaders.push i
      classes := (addUses g.classes c i).push { nodes := [c], members := [i] }
      classOf := g.classOf.insert c i
      pending := (c, i) :: g.pending })

/-- The class of a node, which is new if the node is. -/
def add (g : EqualityGraph) (c : Cell) : Nat × EqualityGraph :=
  let c := g.canonical c
  match g.classOf[c]? with
  | some i => (g.find i, g)
  | none => g.addClass c

/-- Joins the class `j` to the class `i`. -/
def absorb (g : EqualityGraph) (i j : Nat) : EqualityGraph :=
  let absorbed := g.classes[j]?.getD {}
  { g with
    leaders := absorbed.members.foldl (fun leaders m => leaders.setIfInBounds m i) g.leaders
    classes := (g.classes.setIfInBounds j {}).modify i fun k =>
      { nodes := absorbed.nodes ++ k.nodes
        users := k.users ++ absorbed.users
        members := absorbed.members ++ k.members }
    pending := absorbed.users.foldl (fun pending use => use :: pending) g.pending }

/-- The number of nodes that use a class. -/
def useCount (g : EqualityGraph) (i : Nat) : Nat := (g.classes[i]?.map fun k => k.users.size).getD 0

/-- Joins two classes, the one that is used less to the other, and says whether they were apart. -/
def join (g : EqualityGraph) (i j : Nat) : Bool × EqualityGraph :=
  let i := g.find i
  let j := g.find j
  if i = j then (false, g)
  else if g.useCount i < g.useCount j then (true, g.absorb j i)
  else (true, g.absorb i j)

/-- Gives a pending node the class it belongs to and joins it to the one it has. -/
def settle (g : EqualityGraph) (use : Cell × Nat) : EqualityGraph :=
  let c := g.canonical use.1
  let known := g.classOf[c]?
  let g := { g with classOf := g.classOf.insert c use.2 }
  match known with
  | some i => (g.join i use.2).2
  | none => g

/-- Settles pending nodes, the latest first. -/
def settleAll : Nat → EqualityGraph → EqualityGraph
  | 0, g => g
  | fuel + 1, g =>
    match g.pending with
    | [] => g
    | use :: rest => settleAll fuel ({ g with pending := rest }.settle use)

/-- How many nodes are settled at most: there are fewer joins than classes, and a join makes no more
nodes pending than there are uses. -/
def settleBound (g : EqualityGraph) : Nat :=
  let uses := g.classes.foldl (fun n k => n + k.users.size) 0
  g.pending.length + g.leaders.size * uses

/-- The members of a list without repetitions. -/
def distinct : List Cell → List Cell
  | [] => []
  | [c] => [c]
  | cs =>
    (cs.foldl (fun (s : Std.HashSet Cell × List Cell) c =>
      if s.1.contains c then s else (s.1.insert c, c :: s.2)) (∅, [])).2.reverse

/-- Writes the nodes of every class over the classes their operands have been joined to. -/
def refresh (g : EqualityGraph) : EqualityGraph :=
  { g with
    classes := g.classes.map fun k =>
      { k with nodes := distinct (k.nodes.map fun c =>
          { c with operands := c.operands.map fun i => g.leaders[i]?.getD i }) } }

/-- The distinct heads of nodes. -/
def headsOf (cs : List Cell) : List Head :=
  cs.foldl (fun heads c => if heads.contains c.head then heads else c.head :: heads) []

/-- Puts an item before those with a key. -/
def file {κ : Type} {α : Type} [BEq κ] [Hashable κ] (m : Std.HashMap κ (List α)) (key : κ) (x : α) :
    Std.HashMap κ (List α) :=
  m.insert key (x :: m[key]?.getD [])

/-- Lists the classes by the heads of their nodes, and the nodes by class, head and first
operand. -/
def reindex (g : EqualityGraph) : EqualityGraph :=
  let classes := List.range g.classes.size
  { g with
    index := classes.foldr (fun i index =>
      (headsOf (g.nodes i)).foldl (fun index head => file index head i) index) ∅
    byFirst := classes.foldl (fun byFirst i =>
      (g.nodes i).foldr (fun c byFirst =>
        match c.operands with
        | [] => byFirst
        | k :: _ => file byFirst (i, c.head, k) c) byFirst) ∅ }

/-- Joins classes until nodes with the same head over the same classes are in one class. -/
def rebuild (g : EqualityGraph) : EqualityGraph := (settleAll g.settleBound g).refresh

/-- Adds the cells of a term and gives the class of its root. -/
def addTerm (g : EqualityGraph) (t : Term) : Nat × EqualityGraph :=
  let (classes, g) := t.cells.foldl
    (fun (s : Array Nat × EqualityGraph) c =>
      let (i, g) := s.2.add { c with operands := c.operands.map fun k => s.1[k]?.getD 0 }
      (s.1.push i, g))
    (#[], g)
  (g.find (classes.back?.getD 0), g)

end EqualityGraph

end Resolvent

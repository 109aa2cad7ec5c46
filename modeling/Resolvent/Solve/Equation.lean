import Resolvent.Solve.Status

/-!
# Equations

An equation has two stored sides.  Its text is a list in parentheses of the sign `=` and the two
sides, each the text of an expression.  `splitItems` cuts the inside of the list into its items at
white space and at closing parentheses.
-/

namespace Resolvent

/-- An equation between two stored expressions. -/
structure Equation where
  /-- The left-hand side. -/
  lhs : Handle
  /-- The right-hand side. -/
  rhs : Handle
  deriving DecidableEq, Repr

namespace Equation

/-- The state of cutting a text into items. -/
structure Cut where
  /-- The items that are complete, the last first. -/
  items : List (List Char) := []
  /-- The characters of the item at hand, the last first. -/
  current : List Char := []
  /-- The number of parentheses that are open. -/
  depth : Nat := 0
  deriving DecidableEq, Repr

/-- Completes the item at hand, if there is one. -/
def Cut.close (s : Cut) : Cut :=
  if s.current.isEmpty then s else { s with items := s.current.reverse :: s.items, current := [] }

/-- Takes one character. -/
def Cut.step (s : Cut) (c : Char) : Cut :=
  if c = '(' then { s with current := c :: s.current, depth := s.depth + 1 }
  else if c = ')' then
    let s := { s with
      current := if s.current.isEmpty then [] else c :: s.current
      depth := s.depth - 1 }
    if s.depth = 0 then s.close else s
  else if Text.isBlank c && s.depth == 0 then s.close
  else { s with current := c :: s.current }

/-- The items of a text: runs of characters without white space, where white space in parentheses
does not count. -/
def splitItems (cs : List Char) : List (List Char) := (cs.foldl Cut.step {}).close.items.reverse

/-- The inside of a list that begins with the sign `=`. -/
def inside? (text : String) : Option (List Char) :=
  match Text.trim text.toList with
  | '(' :: rest =>
    match rest.reverse with
    | ')' :: inner =>
      match Text.trimStart inner.reverse with
      | '=' :: items => some items
      | _ => none
    | _ => none
  | _ => none

/-- The equation that a text stands for. -/
def parse (read : Term.Reader) (text : String) : BuildT StoreError Equation :=
  match (inside? text).map splitItems with
  | some [lhs, rhs] => do
    let lhs ← ExceptT.adapt .unreadable (Build.ofText read (String.ofList lhs))
    let rhs ← ExceptT.adapt .unreadable (Build.ofText read (String.ofList rhs))
    return ⟨lhs, rhs⟩
  | _ => throw (.malformed text)

/-- The difference of the two sides. -/
def standardForm (e : Equation) : Build Handle := Build.difference e.lhs e.rhs

theorem Cut.close_close (s : Cut) : s.close.close = s.close := by
  unfold close
  split <;> simp_all

end Equation

end Resolvent

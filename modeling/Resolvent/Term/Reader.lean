import Resolvent.Number.Decimal
import Resolvent.Term.Import
import Resolvent.Text.Blank

/-!
# A reader of terms

A reader of terms that runs.  The written form of a term is a nested list: an atom, or a list of such
things in parentheses.  White space around the text is dropped.  Blanks and tabs may stand before an
atom or a list, and line ends too between the members of a list.  A bare atom runs up to a blank, a
parenthesis or a line end; an atom in quotes up to the closing quote.  What follows the first
complete atom or list is not read.

A nested list is a term if the head of every list is an operator with that number of operands.  An
atom, or a list of one atom, is an integer if it is a whole number of 64 bits, and a symbol
otherwise.
-/

namespace Resolvent

/-! ### Nested lists -/

/-- An atom, or a list of nested lists. -/
inductive NestedList where
  | atom (text : String)
  | list (members : List NestedList)

namespace NestedList

/-- What may stand before an atom or a list. -/
def isSpace (c : Char) : Bool := c == ' ' || c == '\t'

/-- What may stand between the members of a list. -/
def isSeparator (c : Char) : Bool := isSpace c || c == '\r' || c == '\n'

/-- What ends a bare atom. -/
def endsAtom (c : Char) : Bool := c == ' ' || c == '(' || c == ')' || c == '\r' || c == '\n'

/-- Reads an atom; the characters behind it are left. -/
def readAtom? : List Char → Option (String × List Char)
  | [] => none
  | ')' :: _ => none
  | '"' :: cs =>
    match cs.dropWhile (· != '"') with
    | [] => none
    | _ :: rest => some (String.ofList (cs.takeWhile (· != '"')), rest)
  | cs => some (String.ofList (cs.takeWhile (!endsAtom ·)), cs.dropWhile (!endsAtom ·))

mutual

/-- Reads an atom or a list; the characters behind it are left. -/
def read? : Nat → List Char → Option (NestedList × List Char)
  | 0, _ => none
  | fuel + 1, cs =>
    match cs.dropWhile isSpace with
    | '(' :: rest => (readMembers? fuel rest).map fun (xs, rest) => (list xs, rest)
    | cs => (readAtom? cs).map fun (text, rest) => (atom text, rest)

/-- Reads the members of a list up to the closing parenthesis. -/
def readMembers? : Nat → List Char → Option (List NestedList × List Char)
  | 0, _ => none
  | _ + 1, ')' :: rest => some ([], rest)
  | fuel + 1, cs => do
    let (x, rest) ← read? fuel cs
    let (xs, rest) ← readMembers? fuel (rest.dropWhile isSeparator)
    return (x :: xs, rest)

end

/-- Reads the first atom or list of a text.  Every second step of the reader takes a character. -/
def parse? (text : String) : Option NestedList :=
  let cs := Text.trim text.toList
  (read? (2 * cs.length + 2) cs).map Prod.fst

end NestedList

/-! ### Terms -/

/-- The head that an atom stands for. -/
def Head.ofAtom (text : String) : Head :=
  match Decimal.int64? text.toList with
  | some n => .number n
  | none => .symbol text

namespace NestedList

mutual

/-- Appends the cells of a nested list to a term and gives the place of the last. -/
def appendTo (t : Term) : NestedList → Option (Nat × Term)
  | atom text => some (t.push ⟨.ofAtom text, []⟩)
  | list [] => none
  | list (list _ :: _) => none
  | list [atom text] => some (t.push ⟨.ofAtom text, []⟩)
  | list (atom text :: args) => do
    let (operands, t) ← appendAllTo t args
    let o ← Operator.ofText? text operands.length
    return t.push ⟨.op o, operands⟩

/-- Appends the cells of several nested lists to a term and gives the places of the last ones. -/
def appendAllTo (t : Term) : List NestedList → Option (List Nat × Term)
  | [] => some ([], t)
  | x :: xs => do
    let (i, t) ← appendTo t x
    let (is, t) ← appendAllTo t xs
    return (i :: is, t)

end

end NestedList

/-- The term that a text stands for. -/
def Term.parse? : Term.Reader := fun text => do
  let x ← NestedList.parse? text
  let (_, t) ← x.appendTo {}
  return t

end Resolvent

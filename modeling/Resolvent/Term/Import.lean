import Resolvent.Expression.Arena
import Resolvent.Number.Decimal
import Resolvent.Term.Basic
import Resolvent.Text.Letter

/-!
# Expressions from terms

Storing a term in an arena, cell by cell.  A symbol is a constant, an undefined or unreal value, a
decimal number or the name of a symbol; a symbol `$k` is a placeholder for the `k`-th of a list of
stored expressions.  `Build.ofText` reads the expression that a text stands for, where a reader of
terms is given.
-/

namespace Resolvent

/-- What reads terms: it gives the term that a text stands for, if the text is a term. -/
abbrev Term.Reader := String → Option Term

/-- Why a text gives no expression. -/
inductive ImportError where
  /-- The text is no term. -/
  | malformed
  /-- A symbol that starts like a number is none. -/
  | badNumber (text : String)
  /-- A call whose function is not given by name. -/
  | namelessCall
  /-- A row with more than 255 entries. -/
  | matrixTooLarge
  /-- A symbol that is no name. -/
  | invalidName (name : String)
  /-- The arena is full. -/
  | exhausted (e : Exhausted)
  deriving DecidableEq, Repr

/-- What to tell the user. -/
def ImportError.message : ImportError → String
  | malformed => "cannot parse expression"
  | badNumber text => "cannot parse expression: bad number `" ++ text ++ "`"
  | namelessCall => "cannot parse expression: call needs a function name"
  | matrixTooLarge => "cannot parse expression: matrix too large"
  | invalidName name => "invalid name `" ++ name ++ "`"
  | exhausted e => e.message

/-- Names of at most seven characters: a letter or `_`, then letters, numerals and `_`. -/
def isName (name : String) : Bool :=
  let cs := name.toList
  decide (cs.length ≤ 7) && (cs.head?.any fun c => Text.isLetter c || c == '_') &&
    cs.all fun c => Text.isLetter c || Text.isNumeral c || c == '_'

namespace Head

/-- The symbol starts like a number. -/
def startsLikeNumber (name : String) : Bool :=
  name.toList.head?.any fun c => c.isDigit || c == '.' || c == '-'

/-- The place that a placeholder refers to. -/
def placeholder? (digits : List Char) : Option Nat :=
  match Decimal.signed? digits with
  | some (.ofNat n) => if digits.head? = some '-' then none else some n
  | _ => none

/-- Stores what a symbol stands for. -/
def buildSymbol (placeholders : List Handle) (name : String) : BuildT ImportError Handle :=
  match name.toList with
  | '$' :: digits =>
    match (placeholder? digits).bind fun k => placeholders[k]? with
    | some h => return h
    | none => throw (.invalidName name)
  | _ =>
    if name == "π" || name == "pi" then Build.lift .exhausted (Build.constant .pi)
    else if name == "ℯ" then Build.lift .exhausted (Build.constant .e)
    else if name == "𝐢" || name == "i" then Build.lift .exhausted (Build.constant .imaginaryUnit)
    else if name == "undef" then Build.lift .exhausted Build.undefined
    else if name == "nonreal" then Build.lift .exhausted Build.unreal
    else if startsLikeNumber name then
      match Decimal.parse? name with
      | some q => Build.lift .exhausted (Build.rational q)
      | none => throw (.badNumber name)
    else if isName name then Build.lift .exhausted (Build.symbol name)
    else throw (.invalidName name)

/-- Stores an operator over stored operands, which come with their heads. -/
def buildOperator (o : Operator) (operands : List (Head × Handle)) : BuildT ImportError Handle :=
  match o, operands with
  | .add, [a, b] => Build.lift .exhausted (Build.sum [a.2, b.2])
  | .sub, [a, b] => Build.lift .exhausted (Build.difference a.2 b.2)
  | .mul, [a, b] => Build.lift .exhausted (Build.product [a.2, b.2])
  | .div, [a, b] => Build.lift .exhausted (Build.quotient a.2 b.2)
  | .neg, [a] => Build.lift .exhausted (Build.opposite a.2)
  | .pow, [a, b] => Build.lift .exhausted (Build.power a.2 b.2)
  | .apply .exp, [a] => Build.lift .exhausted do Build.power (← Build.constant .e) a.2
  | .apply f, args => Build.lift .exhausted (Build.apply f (args.map Prod.snd))
  | .call, [f, a] =>
    match f.1 with
    | .symbol name =>
      if isName name then Build.lift .exhausted (Build.call name a.2)
      else throw (.invalidName name)
    | _ => throw .namelessCall
  | .matrix, entries =>
    if entries.length ≤ 255 then
      Build.lift .exhausted (Build.matrix 1 entries.length (entries.map Prod.snd))
    else throw .matrixTooLarge
  | _, _ => throw .malformed

/-- Stores a head over stored operands. -/
def build (placeholders : List Handle) (operands : List (Head × Handle)) :
    Head → BuildT ImportError Handle
  | number n => Build.lift .exhausted (Build.integer n)
  | symbol name => buildSymbol placeholders name
  | op o => buildOperator o operands

end Head

/-- Stores the cells of a term in order and gives the handle of the root. -/
def Term.build (placeholders : List Handle) (t : Term) : BuildT ImportError Handle := do
  let built ← t.cells.foldlM
    (fun (built : Array (Head × Handle)) c => do
      let operands := c.operands.filterMap fun i => built[i]?
      let h ← c.head.build placeholders operands
      return built.push (c.head, h))
    #[]
  match built.back? with
  | some (_, h) => return h
  | none => throw .malformed

/-- Stores the expression that a text stands for. -/
def Build.ofText (read : Term.Reader) (text : String) : BuildT ImportError Handle :=
  match read text with
  | some t => t.build []
  | none => throw .malformed

end Resolvent

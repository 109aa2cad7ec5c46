import Resolvent.Text.Blank
import Resolvent.Number.Width

/-!
# Decimal literals

The grammar of numbers in texts.  A literal is, between white space: an optional minus sign,
digits with at most one point among them and at least one digit in all, and optionally an exponent
mark (`e`, `E` or the small capital `ᴇ`) followed by a whole number with an optional sign that
fits a word of 64 bits.  `parse?` gives the rational number it denotes, exactly, as long as the
exponent less the number of digits behind the point stays in the range of a word (`scale?`).
-/

namespace Resolvent.Decimal

/-- The marks that may stand before an exponent. -/
def isExponentMark (c : Char) : Bool := c == 'e' || c == 'E' || c == 'ᴇ'

/-- The value of a decimal digit. -/
def digitValue (c : Char) : Nat := c.toNat - '0'.toNat

/-- The number that a run of digits denotes. -/
def ofDigits (cs : List Char) : Nat := cs.foldl (fun n c => 10 * n + digitValue c) 0

/-- A whole number with an optional sign of either kind. -/
def signed? (cs : List Char) : Option Int :=
  let (negative, digits) : Bool × List Char :=
    match cs with
    | '-' :: rest => (true, rest)
    | '+' :: rest => (false, rest)
    | _ => (false, cs)
  if digits.isEmpty || !digits.all Char.isDigit then none
  else some (if negative then -(ofDigits digits : Int) else (ofDigits digits : Int))

/-- A whole number with an optional sign, when it fits a word of 64 bits. -/
def int64? (cs : List Char) : Option Int := (signed? cs).filter Width.isInt64

/-- The number `digits · 10 ^ scale`. -/
def scaled (digits : Int) (scale : Int) : Rat :=
  if 0 ≤ scale then (digits * (Nat.pow 10 scale.toNat : Nat) : Int)
  else mkRat digits (Nat.pow 10 (-scale).toNat)

/-- Digits with at most one point, times a power of ten. -/
def unsigned? (negative : Bool) (mantissa : List Char) (exponent : Int) : Option Rat :=
  let whole := mantissa.takeWhile (· != '.')
  let fraction := (mantissa.dropWhile (· != '.')).drop 1
  let digits := whole ++ fraction
  if digits.isEmpty || !digits.all Char.isDigit then none
  else
    let value : Int := ofDigits digits
    some (scaled (if negative then -value else value) (exponent - fraction.length))

/-- The power of ten that the digits are multiplied with, computed in signed words of 64 bits.
Nothing is the power where its opposite is not positive, as at the least word. -/
def scale? (exponent : Int) (places : Nat) : Option Int :=
  if Width.isInt64 places then
    let scale := Width.wrap64 (exponent - places)
    if scale < 0 ∧ Width.wrap64 (-scale) < 0 then none else some scale
  else none

/-- Whether a minus sign stands in front, and what follows it. -/
def cutMinus : List Char → Bool × List Char
  | '-' :: rest => (true, rest)
  | cs => (false, cs)

/-- What follows the first point. -/
def behindPoint (cs : List Char) : List Char := (cs.dropWhile (· != '.')).drop 1

/-- The exponent behind its mark, or none at all. -/
def exponent? : List Char → Option Int
  | [] => some 0
  | _ :: cs => int64? cs

/-- A literal without white space around it. -/
def parseTrimmed? (cs : List Char) : Option Rat := do
  let (negative, mantissa) := cutMinus (cs.takeWhile fun c => !isExponentMark c)
  let exponent ← exponent? (cs.dropWhile fun c => !isExponentMark c)
  let places := (behindPoint mantissa).length
  let scale ← scale? exponent places
  -- `unsigned?` takes the places off its exponent.
  unsigned? negative mantissa (scale + places)

/-- The rational number that a decimal literal denotes. -/
def parse? (text : String) : Option Rat := parseTrimmed? (Text.trim text.toList)

theorem ofDigits_nil : ofDigits [] = 0 := rfl

theorem ofDigits_append_singleton (cs : List Char) (c : Char) :
    ofDigits (cs ++ [c]) = 10 * ofDigits cs + digitValue c := by
  simp [ofDigits, List.foldl_append]

theorem int64?_eq_some_iff {cs : List Char} {n : Int} :
    int64? cs = some n ↔ signed? cs = some n ∧ Width.isInt64 n = true := by
  simp [int64?, Option.filter_eq_some_iff]

end Resolvent.Decimal

import Resolvent.Number.Double

/-!
# Decimal digits of doubles

`shortest` finds the fewest decimal digits that read back as a given double, and of those the
nearest to its value; two equally near ones leave the choice to the larger.  `rounded` gives a
fixed number of significant digits of the exact value, a half going to the even digit.  Both work
on the value as a fraction of natural numbers.

There are two ways to write a double, both with the shortest digits.  `positionalText` never uses an
exponent.  `calculatorText` is the display of a calculator: positional for numbers from `10 ^ -4` up
to `10 ^ 10`, and with the exponent mark `ᴇ` outside.
-/

namespace Resolvent.Double

/-- A decimal number: `digits · 10 ^ exponent`. -/
structure Decimal where
  /-- The digits, as one whole number. -/
  digits : Nat
  /-- The exponent of the last digit. -/
  exponent : Int
  deriving DecidableEq, Repr

/-- `10 ^ k ≤ n / d`. -/
def powerLe (n d : Nat) (k : Int) : Bool :=
  decide (Nat.pow 10 k.toNat * d ≤ n * Nat.pow 10 (-k).toNat)

/-- The exponent of the first decimal digit of `n / d`.  Three tenths of the difference of the
binary lengths is at most one off. -/
def leadingExponent (n d : Nat) : Int :=
  let guess := ((n.log2 : Int) - d.log2) * 1233 / 4096
  if powerLe n d (guess + 1) then guess + 1 else if powerLe n d guess then guess else guess - 1

/-- `n / d` in units of `10 ^ k`, as a fraction. -/
def inUnits (n d : Nat) (k : Int) : Nat × Nat :=
  (n * Nat.pow 10 (-k).toNat, d * Nat.pow 10 k.toNat)

/-- The open or closed interval of the values that read back as one double, with that double's
own value.  All are numerators over one denominator. -/
structure Neighbourhood where
  /-- The lower end. -/
  low : Nat
  /-- The double itself. -/
  value : Nat
  /-- The upper end. -/
  high : Nat
  /-- The common denominator. -/
  denominator : Nat
  /-- The ends read back as the double too. -/
  closed : Bool

/-- The values that round to a double: half a unit on either side, but a quarter below the first
significand of a binade, where the units of the neighbour are half as long. -/
def neighbourhood (p : Parts) : Neighbourhood :=
  let unit := 1 <<< p.exponent.toNat
  let below := if p.significand = hiddenBit && decide (-1074 < p.exponent) then 1 else 2
  { low := (4 * p.significand - below) * unit
    value := 4 * p.significand * unit
    high := (4 * p.significand + 2) * unit
    denominator := 4 <<< (-p.exponent).toNat
    closed := p.significand % 2 = 0 }

/-- The decimal `c · 10 ^ k` lies in the neighbourhood. -/
def Neighbourhood.holds (s : Neighbourhood) (c : Nat) (k : Int) : Bool :=
  let x := c * Nat.pow 10 k.toNat * s.denominator
  let u := Nat.pow 10 (-k).toNat
  if s.closed then decide (s.low * u ≤ x ∧ x ≤ s.high * u)
  else decide (s.low * u < x ∧ x < s.high * u)

/-- The nearer of the two neighbours of the value on the grid of `10 ^ k` that lie in the
neighbourhood, if one does. -/
def Neighbourhood.onGrid? (s : Neighbourhood) (k : Int) : Option Nat :=
  let (n, d) := inUnits s.value s.denominator k
  let c := n / d
  match s.holds c k, s.holds (c + 1) k with
  | true, true => some (if 2 * (n % d) < d then c else c + 1)
  | true, false => some c
  | false, true => some (c + 1)
  | false, false => none

/-- Takes zeros off the end of the digits. -/
def Decimal.trimZeros : Nat → Decimal → Decimal
  | 0, x => x
  | fuel + 1, x =>
    if x.digits ≠ 0 ∧ x.digits % 10 = 0 then trimZeros fuel ⟨x.digits / 10, x.exponent + 1⟩ else x

/-- The fewest digits that read back as the absolute value of a finite double. -/
def shortest (x : Float) : Decimal :=
  let p := parts x
  let s := neighbourhood p
  let lead := leadingExponent s.value s.denominator
  let found := (List.range 17).findSome? fun (i : Nat) =>
    (s.onGrid? (lead - i)).map fun c => (⟨c, lead - i⟩ : Decimal)
  (found.getD ⟨p.significand, 0⟩).trimZeros 20

/-- The absolute value of a finite double to a number of significant digits. -/
def rounded (x : Float) (count : Nat) : Decimal :=
  let (n, d) := (parts x).fraction
  let k := leadingExponent n d - count + 1
  let (n, d) := inUnits n d k
  ⟨roundQuotient n d, k⟩

/-- The double nearest to a decimal with a sign. -/
def ofDecimal (negative : Bool) (x : Decimal) : Float :=
  ofFraction negative (x.digits * Nat.pow 10 x.exponent.toNat) (Nat.pow 10 (-x.exponent).toNat)

/-- The double nearest to the value rounded to a number of significant digits, at least one. -/
def roundSignificant (x : Float) (count : Nat) : Float :=
  if x == 0.0 || !x.isFinite then x
  else ofDecimal (parts x).negative (rounded x (if count = 0 then 1 else count))

/-- The rational number that the shortest digits of a double denote, if it is finite. -/
def shortestRational? (x : Float) : Option Rat :=
  if !x.isFinite then none
  else if x == 0.0 then some 0
  else
    let s := shortest x
    let digits : Int := if (parts x).negative then -(s.digits : Int) else (s.digits : Int)
    some (mkRat (digits * (Nat.pow 10 s.exponent.toNat : Nat)) (Nat.pow 10 (-s.exponent).toNat))

/-! ### Texts of doubles -/

/-- The digits of a decimal in positional form. -/
def Decimal.positional (x : Decimal) : String :=
  let digits := (toString x.digits).toList
  if 0 ≤ x.exponent then String.ofList (digits ++ List.replicate x.exponent.toNat '0')
  else
    let places := (-x.exponent).toNat
    if places < digits.length then
      String.ofList (digits.take (digits.length - places) ++ '.' ::
        digits.drop (digits.length - places))
    else String.ofList ('0' :: '.' :: (List.replicate (places - digits.length) '0' ++ digits))

/-- The digits of a decimal with a point after the first, and an exponent behind the mark. -/
def Decimal.scientific (mark : Char) (x : Decimal) : String :=
  let digits := (toString x.digits).toList
  let exponent := (toString (x.exponent + digits.length - 1)).toList
  match digits with
  | first :: second :: rest => String.ofList (first :: '.' :: second :: rest ++ mark :: exponent)
  | _ => String.ofList (digits ++ mark :: exponent)

/-- Puts a minus sign before the text of a negative number. -/
def withSign (negative : Bool) (text : String) : String := if negative then "-" ++ text else text

/-- The shortest digits of a double, never with an exponent. -/
def positionalText (x : Float) : String :=
  if x.isNaN then "NaN"
  else
    let negative := decide (signBit ≤ x.toBits.toNat)
    if !x.isFinite then withSign negative "inf"
    else if x == 0.0 then withSign negative "0"
    else withSign negative (shortest x).positional

/-- The exponents of ten that the calculator display writes positionally. -/
def isPositionalExponent (k : Float) : Bool := -4.0 ≤ k && k < 10.0

/-- The calculator's display of a double: undefined for one that is no finite number. -/
def calculatorText (x : Float) : String :=
  if x == 0.0 then "0"
  else if !x.isFinite then "undef"
  else
    let s := shortest x
    withSign (parts x).negative
      (if isPositionalExponent x.abs.log10.floor then s.positional else s.scientific 'ᴇ')

end Resolvent.Double

import Resolvent.Number.Rational
import Resolvent.Number.Double

/-!
# Perfect powers in whole numbers

`extract` writes a positive whole number as `t ^ n · u`, with the factors `n`-fold in it taken out
as far as trial division by numbers below `2 ^ 20` can tell.  What trial division leaves is a prime,
a perfect power that an estimate of its root finds, or stays under the root.  The estimate is a
parameter, `estimate k n`, of which only the neighbourhood is tested.
-/

namespace Resolvent.PerfectPower

/-- Numbers from this one on are not tried as divisors. -/
def trialLimit : Nat := 1048576

/-- Divides a factor out of a number as often as it goes and counts how often. -/
def divideOut (p : Nat) : Nat → (n count : Nat) → Nat × Nat
  | 0, n, count => (n, count)
  | fuel + 1, n, count => if n % p = 0 then divideOut p fuel (n / p) (count + 1) else (n, count)

/-- What trial division has found so far. -/
structure Trial where
  /-- The part of the number not factored yet. -/
  remaining : Nat
  /-- The next divisor to try. -/
  divisor : Nat
  /-- The product of the factors outside the root. -/
  outside : Nat
  /-- The product of the factors under the root. -/
  inside : Nat
  deriving DecidableEq, Repr

/-- Tries one divisor and goes on to the next, which is odd. -/
def Trial.step (index : Nat) (t : Trial) : Trial :=
  let next := if t.divisor = 2 then 3 else t.divisor + 2
  if t.remaining % t.divisor = 0 then
    let (remaining, count) := divideOut t.divisor t.remaining.log2 t.remaining 0
    { remaining := remaining
      divisor := next
      outside := t.outside * Nat.pow t.divisor (count / index)
      inside := t.inside * Nat.pow t.divisor (count % index) }
  else { t with divisor := next }

/-- Tries divisors up to the square root of what remains and below the limit. -/
def Trial.run (index : Nat) : Nat → Trial → Trial
  | 0, t => t
  | fuel + 1, t =>
    if t.divisor * t.divisor ≤ t.remaining ∧ t.divisor < trialLimit then
      run index fuel (t.step index)
    else t

/-- The exact root of a number below `2 ^ 128` next to an estimate of it. -/
def rootNear? (estimate value index : Nat) : Option Nat :=
  [estimate - 1, estimate, estimate + 1].find? fun c =>
    decide (index < 128) && Nat.pow c index == value

/-- Factors a whole number as `outside ^ index · inside`. -/
def factor (estimate : Nat → Nat → Nat) (value index : Nat) : Nat × Nat :=
  let t := Trial.run index trialLimit ⟨value, 2, 1, 1⟩
  if t.remaining ≤ 1 then (t.outside, t.inside)
  else if t.remaining < t.divisor * t.divisor then (t.outside, t.inside * t.remaining)
  else
    match rootNear? (estimate t.remaining index) t.remaining index with
    | some root => (t.outside * root, t.inside)
    | none => (t.outside, t.inside * t.remaining)

/-- Writes a number as `t ^ index · u`.  Fractions, negative numbers and numbers of more than 128
bits stay as they are. -/
def extractWith (estimate : Nat → Nat → Nat) (value : Rat) (index : Nat) : Rat × Rat :=
  if value.den ≠ 1 ∨ value.num < 2 ∨ index < 2 ∨ Width.isInt128 value.num = false then (1, value)
  else
    let (outside, inside) := factor estimate value.num.toNat index
    ((outside : Rat), (inside : Rat))

/-- The rounded root in doubles. -/
def estimate (value index : Nat) : Nat :=
  ((Double.ofInteger value).pow (1.0 / (Double.ofInteger index))).round.toUInt64.toNat

/-- Writes a number as `t ^ index · u`, with the root estimated in doubles. -/
def extract (value : Rat) (index : Nat) : Rat × Rat := extractWith estimate value index

theorem extractWith_of_index_lt_two (estimate : Nat → Nat → Nat) (value : Rat) {index : Nat}
    (h : index < 2) : extractWith estimate value index = (1, value) := by
  simp [extractWith, h]

theorem rootNear?_pow {e v n c : Nat} (h : rootNear? e v n = some c) : Nat.pow c n = v := by
  have := List.find?_some h
  simp at this
  simpa using this.2

/-! ### On words of 128 bits

The same extraction with every product, power and sum on the way as a word of 128 bits: there is no
result where one of them does not fit, and none where a loop does not end on its own. -/

/-- The number, if it is a word of 128 bits. -/
def word? (n : Nat) : Option Nat := if Width.isNat128 n then some n else none

/-- The product of a word and a power, where both the power and the product have to be words. -/
def timesPower? (a p k : Nat) : Option Nat := do word? (a * (← word? (Nat.pow p k)))

/-- Divides a factor out of a word as often as it goes and counts how often, if the fuel lasts. -/
def divideOut? (p : Nat) : Nat → (n count : Nat) → Option (Nat × Nat)
  | 0, _, _ => none
  | fuel + 1, n, count =>
    if n % p = 0 then divideOut? p fuel (n / p) (count + 1) else some (n, count)

/-- Tries one divisor and goes on to the next, which is odd. -/
def Trial.step? (index : Nat) (t : Trial) : Option Trial := do
  let (remaining, count) ← divideOut? t.divisor (t.remaining.log2 + 1) t.remaining 0
  let divisor ← word? (t.divisor + if t.divisor = 2 then 1 else 2)
  if 0 < count then
    let outside ← timesPower? t.outside t.divisor (count / index)
    let inside ← timesPower? t.inside t.divisor (count % index)
    return { remaining, divisor, outside, inside }
  else return { t with remaining, divisor }

/-- Tries divisors up to the square root of what remains and below the limit, if the fuel lasts. -/
def Trial.run? (index : Nat) : Nat → Trial → Option Trial
  | 0, _ => none
  | fuel + 1, t => do
    let square ← word? (t.divisor * t.divisor)
    if square ≤ t.remaining ∧ t.divisor < trialLimit then
      let next ← t.step? index
      run? index fuel next
    else return t

/-- The exact root of a word next to an estimate of it, where the candidates have to be words.  A
candidate whose power is no word is passed over. -/
def rootAmong? (estimate value index : Nat) : Option (Option Nat) := do
  let last ← word? (estimate + 1)
  return [estimate - 1, estimate, last].find? fun c => word? (Nat.pow c index) == some value

/-- Factors a word as `outside ^ index · inside`. -/
def factor? (estimate : Nat → Nat → Nat) (value index : Nat) : Option (Nat × Nat) := do
  let t ← Trial.run? index (trialLimit + 1) ⟨value, 2, 1, 1⟩
  if t.remaining ≤ 1 then return (t.outside, t.inside)
  let square ← word? (t.divisor * t.divisor)
  if t.remaining < square then return (t.outside, ← word? (t.inside * t.remaining))
  match ← rootAmong? (estimate t.remaining index) t.remaining index with
  | some root => return (← word? (t.outside * root), t.inside)
  | none => return (t.outside, ← word? (t.inside * t.remaining))

/-- Writes a number as `t ^ index · u`, which stays as it is where a factor has 128 bits. -/
def extract? (estimate : Nat → Nat → Nat) (value : Rat) (index : Nat) : Option (Rat × Rat) := do
  if value.den ≠ 1 ∨ value.num < 2 ∨ index < 2 ∨ Width.isInt128 value.num = false then
    return (1, value)
  let (outside, inside) ← factor? estimate value.num.toNat index
  if Width.isInt128 outside ∧ Width.isInt128 inside then return (outside, inside)
  return (1, value)

end Resolvent.PerfectPower

import Resolvent.Numeric.Continuum

/-!
# Search for roots

A function is sampled from left to right.  Between two samples a root is recognised as one of:

* a zero at the right sample;
* a change of sign, refined by interpolation within the bracket (`refineBracket`); a value that
  does not fall shows a pole, which is rejected;
* a minimum of the absolute value that reaches zero, refined by the golden section
  (`refineMinimum`), as at a root of even multiplicity;
* an end of a region where the function is undefined, if the function vanishes there, refined by
  bisection (`refineBoundary`), as for `√x = 0`.

`nextRoot?` finds the first root behind a point, `successor?` keeps it to an interval, and
`scan` collects the roots of an interval up to a capacity.
-/

namespace Resolvent.RootSearch

open Continuum

variable {α : Type} [Continuum α]

/-- The largest number of samples of one search. -/
def maxSamples : Nat := 4294967295

/-- The largest number of steps of one refinement. -/
def maxRefinements : Nat := 100

/-- The smallest step of a search. -/
def minimalStep : α := decimal 1 3

/-- The part of the step by which a root may lie outside the interval. -/
def zeroPrecision : α := decimal 1 7

/-- The step for the search on an interval. -/
def defaultStep (start stop : α) : α := larger (div (sub stop start) (ofNat 100)) minimalStep

/-! ### Refinements -/

/-- A bracket of a sign change: `b` is the best point so far, `a` the one before, and `c` a point
where the function has the other sign.  `d` is the last step and `e` the one before. -/
structure Bracket (α : Type) where
  /-- The point before the best one. -/
  a : α
  /-- The best point. -/
  b : α
  /-- The other end of the bracket. -/
  c : α
  /-- The value at `a`. -/
  fa : α
  /-- The value at `b`. -/
  fb : α
  /-- The value at `c`. -/
  fc : α
  /-- The last step. -/
  d : α
  /-- The step before the last. -/
  e : α

/-- Makes `b` and `c` ends of a bracket again. -/
def Bracket.rebracket (s : Bracket α) : Bracket α :=
  if lt zero (mul s.fb s.fc) then
    let d := sub s.b s.a
    { s with c := s.a, fc := s.fa, d := d, e := d }
  else s

/-- Makes `b` the end with the smaller value. -/
def Bracket.orient (s : Bracket α) : Bracket α :=
  if lt (abs s.fc) (abs s.fb) then
    { s with a := s.b, fa := s.fb, b := s.c, fb := s.fc, c := s.b, fc := s.fb }
  else s

/-- The length below which the bracket is not refined. -/
def Bracket.tolerance (s : Bracket α) : α :=
  add (mul (mul (ofNat 2) epsilon) (abs s.b)) (mul (decimal 5 1) tiny)

/-- The step to the middle of the bracket. -/
def Bracket.middle (s : Bracket α) : α := mul (decimal 5 1) (sub s.c s.b)

/-- Numerator and denominator of the interpolated step: a secant through two points, or an inverse
parabola through three. -/
def Bracket.interpolation (s : Bracket α) : α × α :=
  let ratio := div s.fb s.fa
  let one := ofNat 1
  if eq s.a s.c then (mul (mul (ofNat 2) s.middle) ratio, sub one ratio)
  else
    let q := div s.fa s.fc
    let r := div s.fb s.fc
    (mul ratio (sub (mul (mul (mul (ofNat 2) s.middle) q) (sub q r))
        (mul (sub s.b s.a) (sub r one))),
      mul (mul (sub q one) (sub r one)) (sub ratio one))

/-- Chooses the next step: the interpolated one if it is short enough, half the bracket
otherwise. -/
def Bracket.chooseStep (s : Bracket α) : Bracket α :=
  let tolerance := s.tolerance
  let middle := s.middle
  if le tolerance (abs s.e) && lt (abs s.fb) (abs s.fa) then
    let (p, q) := s.interpolation
    let q := if lt zero p then neg q else q
    let p := abs p
    let bound := smaller (sub (mul (mul (ofNat 3) middle) q) (abs (mul tolerance q)))
      (abs (mul s.e q))
    if lt (mul (ofNat 2) p) bound then { s with e := s.d, d := div p q }
    else { s with d := middle, e := middle }
  else { s with d := middle, e := middle }

/-- Moves the best point by the chosen step, at least by the tolerance. -/
def Bracket.advance (f : α → α) (s : Bracket α) (middle tolerance : α) : Bracket α :=
  let step := if lt tolerance (abs s.d) then s.d
    else if isNegative middle then neg tolerance else tolerance
  let b := add s.b step
  { s with a := s.b, fa := s.fb, b := b, fb := f b }

/-- Refines a bracket until it is as short as the tolerance. -/
def Bracket.refine (f : α → α) : Nat → Bracket α → α
  | 0, s => s.b
  | fuel + 1, s =>
    let s := s.rebracket.orient
    let tolerance := s.tolerance
    let middle := s.middle
    if le (abs middle) tolerance || eq s.fb zero then s.b
    else refine f fuel (s.chooseStep.advance f middle tolerance)

/-- A point between `a` and `b` where the sign changes. -/
def refineBracket (f : α → α) (a b fa fb : α) : α :=
  let d := sub b a
  Bracket.refine f maxRefinements ⟨a, b, a, fa, fb, fa, d, d⟩

/-- Refines an interval with two inner points and the absolute values there. -/
def minimumLoop (f : α → α) : Nat → (a b c d fc fd : α) → α
  | 0, _, _, c, d, fc, fd => if lt fc fd then c else d
  | fuel + 1, a, b, c, d, fc, fd =>
    if le (abs (sub b a)) (mul epsilon (larger (add (abs a) (abs b)) (ofNat 1))) then
      if lt fc fd then c else d
    else if lt fc fd then
      let c' := sub d (mul golden (sub d a))
      minimumLoop f fuel a d c' c (abs (f c')) fc
    else
      let d' := add c (mul golden (sub b c))
      minimumLoop f fuel c b d d' fd (abs (f d'))

/-- A point between `a` and `b` where the absolute value is least. -/
def refineMinimum (f : α → α) (a b : α) : α :=
  let c := sub b (mul golden (sub b a))
  let d := add a (mul golden (sub b a))
  minimumLoop f maxRefinements a b c d (abs (f c)) (abs (f d))

/-- Halves an interval at one end of which the function is undefined. -/
def boundaryLoop (f : α → α) (undefinedLeft : Bool) : Nat → (a b : α) → α
  | 0, a, b => if undefinedLeft then b else a
  | fuel + 1, a, b =>
    let middle := mul (decimal 5 1) (add a b)
    if le middle a || le b middle then if undefinedLeft then b else a
    else if isUndefined (f middle) == undefinedLeft then
      boundaryLoop f undefinedLeft fuel middle b
    else boundaryLoop f undefinedLeft fuel a middle

/-- The last point next to a region where the function is undefined. -/
def refineBoundary (f : α → α) (a b : α) (undefinedLeft : Bool) : α :=
  boundaryLoop f undefinedLeft maxRefinements a b

/-! ### Sampling -/

/-- The absolute value at the middle of three samples is below both others, and the values have
one sign. -/
def isLocalMinimum (fp f0 f1 : α) : Bool :=
  isFinite fp && isFinite f0 && isFinite f1 &&
    isNegative fp == isNegative f0 && isNegative f0 == isNegative f1 &&
    lt (abs f0) (abs fp) && lt (abs f0) (abs f1)

/-- A root between the samples `x0` and `x1`, given the sample before them. -/
def rootBetween? (f : α → α) (step : α) (previous : Option (α × α)) (x0 f0 x1 f1 : α) :
    Option α :=
  if eq f1 zero then some x1
  else if isFinite f0 && isFinite f1 && lt (mul f0 f1) zero then
    let root := refineBracket f x0 x1 f0 f1
    if le (abs (f root)) (larger (abs f0) (abs f1)) then some root else none
  else if isUndefined f0 != isUndefined f1 then
    let boundary := refineBoundary f x0 x1 (isUndefined f0)
    let inward := if isUndefined f0 then add boundary step else sub boundary step
    if le (abs (f boundary)) (mul (decimal 1 4) (abs (f inward))) then some boundary else none
  else
    match previous with
    | none => none
    | some (xp, fp) =>
      if isLocalMinimum fp f0 f1 then
        let root := refineMinimum f xp x1
        if le (abs (f root)) (mul (decimal 1 9) (larger (abs fp) (abs f1))) then some root
        else none
      else none

/-- Samples a function until a root behind `start` is found, or a sample lies behind `stop`. -/
def sampleLoop (f : α → α) (start stop step : α) :
    Nat → (index : Nat) → Option (α × α) → (x0 f0 : α) → Option α
  | 0, _, _, _, _ => none
  | fuel + 1, index, previous, x0, f0 =>
    if le x0 stop then
      let index := index + 1
      let x1 := add start (mul (ofNat index) step)
      let f1 := f x1
      let separation := mul step (decimal 1 4)
      match (rootBetween? f step previous x0 f0 x1 f1).filter fun root =>
          lt (add start separation) root with
      | some root => some root
      | none => sampleLoop f start stop step fuel index (some (x0, f0)) x1 f1
    else none

/-- The first root behind `start`.  Sampling ends behind `stop`, so the root may lie a little
behind it. -/
def nextRoot? (f : α → α) (start stop maximalStep : α) : Option α :=
  if isFinite start && isFinite stop && lt zero maximalStep then
    sampleLoop f start stop (div maximalStep (ofNat 10)) maxSamples 0 none start (f start)
  else none

/-! ### Successive roots -/

/-- The first root behind a point, if it belongs to the interval up to `stop`. -/
def successor? (f : α → α) (stop maximalStep point : α) : Option α :=
  (nextRoot? f point stop maximalStep).filter fun root =>
    !lt (add stop (mul maximalStep zeroPrecision)) root

/-- The roots behind a point, at most `count` of them. -/
def rootsFrom (f : α → α) (stop maximalStep : α) : (count : Nat) → (point : α) → List α
  | 0, _ => []
  | count + 1, point =>
    match successor? f stop maximalStep point with
    | none => []
    | some root => root :: rootsFrom f stop maximalStep count root

/-- The first root behind a point that does not lie before `bound`. -/
def firstFrom? (f : α → α) (stop maximalStep bound : α) : Nat → (point : α) → Option α
  | 0, _ => none
  | fuel + 1, point =>
    match successor? f stop maximalStep point with
    | none => none
    | some root =>
      if lt root bound then firstFrom? f stop maximalStep bound fuel root else some root

/-- Roots on an interval, and whether there are more of them. -/
structure Roots (α : Type) where
  /-- The roots, in increasing order. -/
  roots : List α := []
  /-- Another root follows the last. -/
  hasMore : Bool := false

/-- The roots between `low` and `high`, at most `capacity` of them.  The search starts a step
before `low`, so that a root at `low` is found; roots before `low` do not count. -/
def scan (f : α → α) (low high : α) (capacity : Nat) : Roots α :=
  let step := defaultStep low high
  let margin := mul step zeroPrecision
  match capacity with
  | 0 => ⟨[], (firstFrom? f high step (sub low margin) maxSamples (sub low step)).isSome⟩
  | count + 1 =>
    match firstFrom? f high step (sub low margin) maxSamples (sub low step) with
    | none => ⟨[], false⟩
    | some first =>
      let roots := first :: rootsFrom f high step count first
      ⟨roots, roots.length == capacity &&
        (successor? f high step (roots.getLast?.getD first)).isSome⟩

theorem length_rootsFrom_le (f : α → α) (stop maximalStep : α) (count : Nat) (point : α) :
    (rootsFrom f stop maximalStep count point).length ≤ count := by
  induction count generalizing point with
  | zero => simp [rootsFrom]
  | succ count ih =>
    simp only [rootsFrom]
    split
    · simp
    · simpa using ih _

end Resolvent.RootSearch

import Resolvent.Form.Approximation

/-!
# Answers

The value of an unknown as a solver gives it: an exact form, a root that is not real, or a number in
doubles.  Several answers are listed with the real ones first, in increasing order, then the others
by imaginary part, and without repetitions.
-/

namespace Resolvent

/-- A value that a solver gives. -/
inductive Answer where
  /-- An exact value. -/
  | exact (f : Form)
  /-- A root that is not real where only real ones are admitted. -/
  | unreal
  /-- A value that is known in doubles only. -/
  | approximate (z : Complex)

namespace Answer

/-- A value that does not exist. -/
def undefined : Answer := approximate Complex.nan

/-- An exact value, if there is one. -/
def ofForm? : Option Form → Answer
  | some f => exact f
  | none => undefined

/-- The number that orders the answer among others. -/
def value (p : Preferences) : Answer → Complex
  | exact f => f.constantValue p.angleUnit
  | unreal => Complex.nan
  | approximate z => z

/-- The answer as it is shown. -/
def rendition (p : Preferences) : Answer → Rendition
  | exact f => Rendition.ofForm p f
  | unreal => Rendition.unreal
  | approximate z => Rendition.ofComplex p z

/-- The answer is exactly the number in doubles. -/
def isDecimal (z : Complex) : Answer → Bool
  | exact f => Rendition.isDecimal f z
  | _ => false

/-! ### Lists of answers -/

/-- Real numbers come first, then those that are not real, then those that are none. -/
def kindRank (z : Complex) : Nat :=
  if z.re.isNaN || z.im.isNaN then 2 else if z.im == 0.0 then 0 else 1

/-- Real numbers are in increasing order, and the others in that of their imaginary parts. -/
def before (z w : Complex) : Bool :=
  if kindRank z < kindRank w then true
  else if kindRank w < kindRank z then false
  else if kindRank z = 0 then decide (Double.rank z.re < Double.rank w.re)
  else if kindRank z = 1 then decide (Double.rank z.im < Double.rank w.im)
  else false

/-- The relative distance under which two numbers in doubles are taken for one. -/
def tolerance : Float := 1e-10

/-- Two answers with their values are the same: as forms if both are exact, up to rounding
otherwise. -/
def same (x y : Complex × Answer) : Bool :=
  let near (z w : Complex) : Bool :=
    let norm := z.norm
    (z.sub w).norm <= tolerance * (if norm < 1.0 || norm.isNaN then 1.0 else norm)
  match x.2, y.2 with
  | exact f, exact g => decide (f = g)
  | unreal, unreal => true
  | exact _, unreal | unreal, exact _ => false
  | _, _ => near x.1 y.1

/-- The members of a list that are not the same as one before them. -/
def distinct (answers : List (Complex × Answer)) : List (Complex × Answer) :=
  answers.foldl (fun kept x => if kept.any (same x) then kept else kept ++ [x]) []

/-- Orders answers and drops repetitions. -/
def listed (p : Preferences) (answers : List Answer) : List Answer :=
  let keyed := answers.map fun a => (a.value p, a)
  (distinct (keyed.mergeSort fun x y => !before y.1 x.1)).map Prod.snd

end Answer

end Resolvent

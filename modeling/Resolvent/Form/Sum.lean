import Resolvent.Form.Parts

/-!
# Sums of forms

Adding forms merges their ordered terms; terms with the same monomial add up, and those that cancel
are dropped.  Opposites and multiples change the coefficients.  `sumAll` adds many forms in pairs,
so that each term takes part in few mergings.
-/

namespace Resolvent.Form

/-- Merges a term, followed by what `rest` makes of the terms behind it, into ordered terms. -/
def mergeTerm (m : Monomial) (q : Rat) (rest : List (Monomial × Rat) → List (Monomial × Rat)) :
    List (Monomial × Rat) → List (Monomial × Rat)
  | [] => (m, q) :: rest []
  | (n, r) :: ys =>
    match m.order n with
    | .lt => (m, q) :: rest ((n, r) :: ys)
    | .eq => if q + r = 0 then rest ys else (m, q + r) :: rest ys
    | .gt => (n, r) :: mergeTerm m q rest ys

/-- Merges two ordered lists of terms. -/
def mergeTerms : List (Monomial × Rat) → List (Monomial × Rat) → List (Monomial × Rat)
  | [] => fun ys => ys
  | (m, q) :: xs => mergeTerm m q (mergeTerms xs)

/-- The sum of two forms. -/
def add (f g : Form) : Form := ⟨mergeTerms f.terms g.terms⟩

/-- A single term, nothing if its coefficient is zero. -/
def ofTerm (m : Monomial) (q : Rat) : Form := if q = 0 then zero else ⟨[(m, q)]⟩

/-- The opposite. -/
def neg (f : Form) : Form := ⟨f.terms.map fun t => (t.1, -t.2)⟩

/-- The difference of two forms. -/
def sub (f g : Form) : Form := add f (neg g)

/-- The multiple by a rational number. -/
def scale (f : Form) (k : Rat) : Form :=
  if k = 0 then zero else ⟨f.terms.map fun t => (t.1, t.2 * k)⟩

/-- Adds the members of a list in pairs. -/
def addPairs : List Form → List Form
  | f :: g :: rest => add f g :: addPairs rest
  | fs => fs

/-- Adds in pairs until one form is left. -/
def sumLoop : Nat → List Form → Form
  | _, [] => zero
  | _, [f] => f
  | 0, fs => fs.foldl add zero
  | fuel + 1, fs => sumLoop fuel (addPairs fs)

/-- The sum of the members of a list. -/
def sumAll (fs : List Form) : Form := sumLoop fs.length fs

theorem zero_add (f : Form) : add zero f = f := by
  obtain ⟨terms⟩ := f
  simp [add, zero, mergeTerms]

theorem add_zero (f : Form) : add f zero = f := by
  obtain ⟨terms⟩ := f
  simp only [add, zero, mk.injEq]
  induction terms with
  | nil => rfl
  | cons t terms ih => simp [mergeTerms, mergeTerm, ih]

end Resolvent.Form

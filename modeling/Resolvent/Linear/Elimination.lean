import Resolvent.Linear.Tableau
import Resolvent.Number.Rational
import Resolvent.Number.Double

/-!
# Elimination

Row echelon form and reduced row echelon form of a tableau.  Scalars cannot always be compared, so
the pivot of a column is chosen by a numeric estimate of the entries, `magnitude`, which is a
parameter: it decides which rows are exchanged and nothing else.  Columns are worked through from
the left; one without a usable entry at or below the current row has no pivot.
-/

namespace Resolvent.Tableau

variable {α : Type} [Scalar α] {m n : Nat}

/-- The row at or below `r` whose entry in column `c` is not zero and has the largest magnitude,
with that magnitude.  The first of equals wins, and any magnitude beats one that is no number. -/
def choosePivot (magnitude : α → Float) (A : Tableau α m n) (r : Nat) (c : Fin n) :
    Option (Fin m × Float) :=
  (List.finRange m).foldl
    (fun best i =>
      if i.val < r || Scalar.isZero (A.entry i c) then best
      else
        let size := magnitude (A.entry i c)
        match best with
        | none => some (i, size)
        | some (_, current) => if size > current || current.isNaN then some (i, size) else best)
    none

/-- Subtracts the multiple of the pivot row `p` that makes the entry of row `i` in the pivot column
zero. -/
def clearEntry (A : Tableau α m n) (i p : Fin m) (c : Fin n) : Tableau α m n :=
  if Scalar.isZero (A.entry i c) then A
  else (A.addScaledRow i p (Scalar.neg (A.entry i c))).set i c Scalar.zero

/-- Clears a column in the rows below the pivot row. -/
def clearBelow (A : Tableau α m n) (p : Fin m) (c : Fin n) : Tableau α m n :=
  (List.finRange m).foldl (fun A i => if p < i then A.clearEntry i p c else A) A

/-- Clears a column in the rows above the pivot row. -/
def clearAbove (A : Tableau α m n) (p : Fin m) (c : Fin n) : Tableau α m n :=
  (List.finRange m).foldl (fun A i => if i < p then A.clearEntry i p c else A) A

/-- Makes column `c` a pivot column of row `r` if one of its entries allows it: exchange, divide,
clear below. -/
def echelonStep (magnitude : α → Float) (state : Tableau α m n × Nat) (c : Fin n) :
    Tableau α m n × Nat :=
  let (A, r) := state
  if h : r < m then
    match A.choosePivot magnitude r c with
    | none => (A, r)
    | some (s, _) =>
      let A := A.swapRows ⟨r, h⟩ s
      match Scalar.inverse? (A.entry ⟨r, h⟩ c) with
      | none => (A, r)
      | some k =>
        let A := (A.scaleRow ⟨r, h⟩ k).set ⟨r, h⟩ c Scalar.one
        (A.clearBelow ⟨r, h⟩ c, r + 1)
  else (A, r)

/-- A row echelon form with leading ones, and the number of its pivots. -/
def rowEchelon (magnitude : α → Float) (A : Tableau α m n) : Tableau α m n × Nat :=
  (List.finRange n).foldl (echelonStep magnitude) (A, 0)

/-- The column of the first entry of a row that is not zero. -/
def leading? (A : Tableau α m n) (i : Fin m) : Option (Fin n) :=
  (List.finRange n).find? fun j => !Scalar.isZero (A.entry i j)

/-- Clears the column of the leading entry of a row in the rows above it. -/
def reduceRow (A : Tableau α m n) (p : Fin m) : Tableau α m n :=
  match A.leading? p with
  | none => A
  | some c => A.clearAbove p c

/-- The reduced row echelon form, and the rank. -/
def reducedRowEchelon (magnitude : α → Float) (A : Tableau α m n) : Tableau α m n × Nat :=
  let (B, rank) := A.rowEchelon magnitude
  (((List.finRange m).filter (·.val < rank)).reverse.foldl reduceRow B, rank)

/-- The number of pivots. -/
def rank (magnitude : α → Float) (A : Tableau α m n) : Nat := (A.rowEchelon magnitude).2

end Resolvent.Tableau

namespace Resolvent.Rational

/-- Rational numbers as scalars. -/
instance : Scalar Rat where
  zero := 0
  one := 1
  add a b := a + b
  mul a b := a * b
  neg a := -a
  isZero a := a == 0
  inverse? := inverse?

/-- The absolute value, as a double. -/
def size (q : Rat) : Float := Double.ofRational (magnitude q)

end Resolvent.Rational

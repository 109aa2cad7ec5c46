/-!
# Tableaux

A tableau is a table of scalars with fixed numbers of rows and columns, stored row by row.  The
three elementary row operations are `swapRows`, `scaleRow` and `addScaledRow`; the lemmas
`entry_set` and `entry_scaleRow` say what they do to the entries.
-/

namespace Resolvent

/-- The operations that elimination needs of its scalars.  `isZero` says that a scalar is known to
be zero. -/
class Scalar (α : Type) where
  /-- Zero. -/
  zero : α
  /-- One. -/
  one : α
  /-- The sum. -/
  add : α → α → α
  /-- The product. -/
  mul : α → α → α
  /-- The opposite. -/
  neg : α → α
  /-- The scalar is known to be zero. -/
  isZero : α → Bool
  /-- The inverse, where there is one. -/
  inverse? : α → Option α

/-- A table of scalars with `m` rows and `n` columns. -/
structure Tableau (α : Type) (m n : Nat) where
  /-- The rows, from the top. -/
  rows : Vector (Vector α n) m

namespace Tableau

variable {α : Type} {m n : Nat}

/-- The entry in row `i` and column `j`. -/
def entry (A : Tableau α m n) (i : Fin m) (j : Fin n) : α := A.rows[i][j]

/-- The entry at a position that may lie outside. -/
def entry? (A : Tableau α m n) (i j : Nat) : Option α := A.rows[i]?.bind fun row => row[j]?

/-- The entries of one column, from the top. -/
def column (A : Tableau α m n) (j : Fin n) : List α := A.rows.toList.map fun row => row[j]

/-- The rows as lists. -/
def toLists (A : Tableau α m n) : List (List α) := A.rows.toList.map Vector.toList

/-- Replaces one entry. -/
def set (A : Tableau α m n) (i : Fin m) (j : Fin n) (x : α) : Tableau α m n :=
  ⟨A.rows.set i (A.rows[i].set j x)⟩

/-- Replaces one row. -/
def setRow (A : Tableau α m n) (i : Fin m) (row : Vector α n) : Tableau α m n :=
  ⟨A.rows.set i row⟩

/-- The tableau with given rows, none when their lengths differ. -/
def ofLists? (rows : List (List α)) : Option ((m : Nat) × (n : Nat) × Tableau α m n) :=
  let width := (rows.head?.map List.length).getD 0
  let sized : List (Option (Vector α width)) := rows.map fun row =>
    if h : row.length = width then some ⟨row.toArray, by simpa using h⟩ else none
  (sized.foldr (fun row rest => row.bind fun r => rest.map (r :: ·)) (some [])).map fun rs =>
    ⟨rs.length, width, ⟨⟨rs.toArray, by simp⟩⟩⟩

/-! ### Row operations -/

/-- Exchanges two rows. -/
def swapRows (A : Tableau α m n) (i j : Fin m) : Tableau α m n :=
  (A.setRow i A.rows[j]).setRow j A.rows[i]

variable [Scalar α]

/-- Multiplies a row by a scalar. -/
def scaleRow (A : Tableau α m n) (i : Fin m) (k : α) : Tableau α m n :=
  A.setRow i (A.rows[i].map fun x => Scalar.mul x k)

/-- Adds a multiple of the row `source` to the row `target`.  Where the source is zero the target
stays as it is. -/
def addScaledRow (A : Tableau α m n) (target source : Fin m) (k : α) : Tableau α m n :=
  A.setRow target (Vector.zipWith
    (fun x y => if Scalar.isZero y then x else Scalar.add x (Scalar.mul y k))
    A.rows[target] A.rows[source])

omit [Scalar α] in
theorem entry_set (A : Tableau α m n) (i i' : Fin m) (j j' : Fin n) (x : α) :
    (A.set i j x).entry i' j' = if i = i' ∧ j = j' then x else A.entry i' j' := by
  simp only [set, entry, Fin.getElem_fin, Vector.getElem_set, Fin.ext_iff]
  split
  · next h => simp [Vector.getElem_set, h]
  · next h => simp [h]

theorem entry_scaleRow (A : Tableau α m n) (i i' : Fin m) (j : Fin n) (k : α) :
    (A.scaleRow i k).entry i' j =
      if i = i' then Scalar.mul (A.entry i' j) k else A.entry i' j := by
  simp only [scaleRow, setRow, entry, Fin.getElem_fin, Vector.getElem_set, Fin.ext_iff]
  split
  · next h => simp [h]
  · rfl

theorem entry_addScaledRow (A : Tableau α m n) (t s i : Fin m) (j : Fin n) (k : α) :
    (A.addScaledRow t s k).entry i j =
      if t = i then
        (if Scalar.isZero (A.entry s j) then A.entry t j
          else Scalar.add (A.entry t j) (Scalar.mul (A.entry s j) k))
      else A.entry i j := by
  simp only [addScaledRow, setRow, entry, Fin.getElem_fin, Vector.getElem_set, Fin.ext_iff]
  split
  · simp only [Vector.getElem_zipWith]
    rfl
  · rfl

end Tableau

end Resolvent

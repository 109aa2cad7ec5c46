import Mathlib.Algebra.Module.Pi
import Mathlib.Algebra.Order.Field.Rat
import Mathlib.LinearAlgebra.Span.Basic
import Mathlib.Tactic.FieldSimp
import Mathlib.Tactic.LinearCombination
import Mathlib.Tactic.Ring
import Resolvent.Linear.Elimination

/-!
# Echelon forms

Whatever the estimate of magnitudes says, elimination brings a table of rational numbers into
reduced row echelon form without changing its row space (`Tableau.exists_reduced`).

The row operations are described entry by entry, and none of them changes `Tableau.rowSpace`, the
space that the rows span.  Clearing a column subtracts from some rows the multiples of the pivot row
that `Tableau.entry_clearColumn` says.

`Tableau.Echelon A pivots c` is the invariant of the first pass, which goes through the columns: the
rows that have a pivot lead with a one in its column, and the other rows are zero before column `c`.
`Tableau.Reduced A pivots r` is that of the second, which goes through the rows from below: the
columns of the pivots from row `r` on are zero apart from the pivots.
-/

namespace Resolvent.Tableau

/-! ### Entries -/

section

variable {α : Type} {m n : Nat}

theorem ext_entry {A B : Tableau α m n} (h : ∀ i j, A.entry i j = B.entry i j) : A = B := by
  obtain ⟨rows⟩ := A
  obtain ⟨rows'⟩ := B
  congr 1
  refine Vector.ext fun i hi => Vector.ext fun j hj => ?_
  exact h ⟨i, hi⟩ ⟨j, hj⟩

theorem entry_swapRows (A : Tableau α m n) (i j k : Fin m) (l : Fin n) :
    (A.swapRows i j).entry k l =
      if k = j then A.entry i l else if k = i then A.entry j l else A.entry k l := by
  simp only [swapRows, setRow, entry, Fin.getElem_fin, Vector.getElem_set, Fin.ext_iff]
  split
  · next h => simp [h]
  · next h =>
    rw [if_neg (Ne.symm h)]
    split
    · next h' => simp [h']
    · next h' => rw [if_neg (Ne.symm h')]

/-- Replacing an entry by itself changes nothing. -/
theorem set_entry_self {A : Tableau α m n} {i : Fin m} {j : Fin n} {x : α}
    (h : A.entry i j = x) : A.set i j x = A := by
  refine ext_entry fun i' j' => ?_
  rw [entry_set]
  split
  · next hij => rw [← hij.1, ← hij.2, h]
  · rfl

end

variable {m n : Nat} {A B : Tableau Rat m n}

theorem entry_addScaledRow_rat (A : Tableau Rat m n) (t s i : Fin m) (j : Fin n) (k : Rat) :
    (A.addScaledRow t s k).entry i j =
      if t = i then A.entry t j + A.entry s j * k else A.entry i j := by
  rw [entry_addScaledRow]
  by_cases hzero : A.entry s j = 0
  · simp [Scalar.isZero, hzero]
  · simp [Scalar.isZero, Scalar.add, Scalar.mul, hzero]

/-- Clearing an entry subtracts the multiple of the pivot row. -/
theorem entry_clearEntry {i p : Fin m} {c : Fin n} (hp : A.entry p c = 1) (k : Fin m) (j : Fin n) :
    (A.clearEntry i p c).entry k j =
      if i = k then A.entry i j - A.entry i c * A.entry p j else A.entry k j := by
  unfold clearEntry
  split
  · next hzero =>
    -- the row is left alone, and so it is by the multiple zero
    have hzero : A.entry i c = 0 := by simpa [Scalar.isZero] using hzero
    split
    · next hik => rw [hzero, ← hik]; ring
    · rfl
  · rw [set_entry_self]
    · rw [entry_addScaledRow_rat]
      simp only [Scalar.neg]
      split
      · ring
      · rfl
    · rw [entry_addScaledRow_rat, if_pos rfl, hp]
      simp [Scalar.neg, Scalar.zero]

/-- Clears a column in the rows that `which` says. -/
def clearColumn (which : Fin m → Bool) (A : Tableau Rat m n) (p : Fin m) (c : Fin n)
    (rows : List (Fin m)) : Tableau Rat m n :=
  rows.foldl (fun A i => if which i then A.clearEntry i p c else A) A

theorem entry_clearColumn (which : Fin m → Bool) {p : Fin m} {c : Fin n} (hp : A.entry p c = 1)
    (hwhich : which p = false) {rows : List (Fin m)} (hrows : rows.Nodup) (k : Fin m) (j : Fin n) :
    (clearColumn which A p c rows).entry k j =
      if k ∈ rows ∧ which k then A.entry k j - A.entry k c * A.entry p j else A.entry k j := by
  induction rows generalizing A with
  | nil => simp [clearColumn]
  | cons i rows ih =>
    obtain ⟨hi, hrows⟩ := List.nodup_cons.1 hrows
    rw [clearColumn, List.foldl_cons]
    by_cases hwi : which i = true
    · have hip : i ≠ p := by
        rintro rfl
        rw [hwhich] at hwi
        cases hwi
      have hp' : (A.clearEntry i p c).entry p c = 1 := by
        rw [entry_clearEntry hp, if_neg hip, hp]
      have htail := ih hp' hrows
      rw [clearColumn] at htail
      rw [if_pos hwi, htail]
      simp only [entry_clearEntry hp, if_neg hip, List.mem_cons]
      by_cases hik : i = k
      · subst hik
        simp [hi, hwi]
      · simp [hik, Ne.symm hik]
    · have htail := ih hp hrows
      rw [clearColumn] at htail
      rw [if_neg hwi, htail]
      by_cases hik : k = i
      · subst hik
        simp [hi, hwi]
      · simp [hik]

theorem entry_clearBelow {p : Fin m} {c : Fin n} (hp : A.entry p c = 1) (k : Fin m) (j : Fin n) :
    (A.clearBelow p c).entry k j =
      if p < k then A.entry k j - A.entry k c * A.entry p j else A.entry k j := by
  have h := entry_clearColumn (fun i => decide (p < i)) hp (by simp)
    (List.nodup_finRange m) k j
  simpa [clearBelow, clearColumn] using h

theorem entry_clearAbove {p : Fin m} {c : Fin n} (hp : A.entry p c = 1) (k : Fin m) (j : Fin n) :
    (A.clearAbove p c).entry k j =
      if k < p then A.entry k j - A.entry k c * A.entry p j else A.entry k j := by
  have h := entry_clearColumn (fun i => decide (i < p)) hp (by simp)
    (List.nodup_finRange m) k j
  simpa [clearAbove, clearColumn] using h

/-! ### The row space -/

/-- The space that the rows span. -/
def rowSpace (A : Tableau Rat m n) : Submodule Rat (Fin n → Rat) :=
  Submodule.span Rat (Set.range A.entry)

theorem entry_mem_rowSpace (A : Tableau Rat m n) (i : Fin m) : A.entry i ∈ A.rowSpace :=
  Submodule.subset_span ⟨i, rfl⟩

theorem rowSpace_le (h : ∀ i, B.entry i ∈ A.rowSpace) : B.rowSpace ≤ A.rowSpace := by
  refine Submodule.span_le.2 ?_
  rintro _ ⟨i, rfl⟩
  exact h i

theorem rowSpace_swapRows (A : Tableau Rat m n) (i j : Fin m) :
    (A.swapRows i j).rowSpace = A.rowSpace := by
  have hrows : ∀ k, (A.swapRows i j).entry k =
      if k = j then A.entry i else if k = i then A.entry j else A.entry k := by
    intro k
    funext l
    rw [entry_swapRows]
    split
    · rfl
    · split <;> rfl
  refine le_antisymm (rowSpace_le fun k => ?_) (rowSpace_le fun k => ?_)
  · rw [hrows]
    split
    · exact A.entry_mem_rowSpace i
    · split
      · exact A.entry_mem_rowSpace j
      · exact A.entry_mem_rowSpace k
  · -- every row is still there, at its own place or at the one it was exchanged with
    have hmem := (A.swapRows i j).entry_mem_rowSpace
    by_cases hki : k = i
    · have hj := hmem j
      rw [hrows, if_pos rfl] at hj
      rwa [hki]
    · by_cases hkj : k = j
      · have hi := hmem i
        rw [hrows] at hi
        split at hi
        · next hij => exact absurd (hkj.trans hij.symm) hki
        · rw [if_pos rfl] at hi
          rwa [hkj]
      · have hk := hmem k
        rwa [hrows, if_neg hkj, if_neg hki] at hk

theorem rowSpace_scaleRow (A : Tableau Rat m n) (i : Fin m) {k : Rat} (hk : k ≠ 0) :
    (A.scaleRow i k).rowSpace = A.rowSpace := by
  have hrows : ∀ l, (A.scaleRow i k).entry l = if i = l then k • A.entry l else A.entry l := by
    intro l
    funext j
    rw [entry_scaleRow]
    split
    · exact mul_comm _ _
    · rfl
  refine le_antisymm (rowSpace_le fun l => ?_) (rowSpace_le fun l => ?_)
  · rw [hrows]
    split
    · exact Submodule.smul_mem _ _ (A.entry_mem_rowSpace l)
    · exact A.entry_mem_rowSpace l
  · have hmem := (A.scaleRow i k).entry_mem_rowSpace l
    rw [hrows] at hmem
    split at hmem
    · -- the row comes back by the inverse
      have hback := Submodule.smul_mem _ k⁻¹ hmem
      rwa [smul_smul, inv_mul_cancel₀ hk, one_smul] at hback
    · exact hmem

/-- Subtracting multiples of a row from others keeps the row space. -/
theorem rowSpace_eq_of_subtract (which : Fin m → Prop) [DecidablePred which] {p : Fin m}
    (hp : ¬ which p) (factor : Fin m → Rat)
    (h : ∀ k j, B.entry k j =
      if which k then A.entry k j - factor k * A.entry p j else A.entry k j) :
    B.rowSpace = A.rowSpace := by
  have hrows : ∀ k, B.entry k =
      if which k then A.entry k - factor k • A.entry p else A.entry k := by
    intro k
    funext j
    rw [h]
    split <;> rfl
  have hpivot : B.entry p = A.entry p := by rw [hrows, if_neg hp]
  refine le_antisymm (rowSpace_le fun k => ?_) (rowSpace_le fun k => ?_)
  · rw [hrows]
    split
    · exact Submodule.sub_mem _ (A.entry_mem_rowSpace k)
        (Submodule.smul_mem _ _ (A.entry_mem_rowSpace p))
    · exact A.entry_mem_rowSpace k
  · have hk := hrows k
    split at hk
    · -- the pivot row is still there, so the multiple can be added back
      rw [show A.entry k = B.entry k + factor k • B.entry p by rw [hk, hpivot, sub_add_cancel]]
      exact Submodule.add_mem _ (B.entry_mem_rowSpace k)
        (Submodule.smul_mem _ _ (B.entry_mem_rowSpace p))
    · rw [← hk]
      exact B.entry_mem_rowSpace k

theorem rowSpace_clearBelow {p : Fin m} {c : Fin n} (hp : A.entry p c = 1) :
    (A.clearBelow p c).rowSpace = A.rowSpace :=
  rowSpace_eq_of_subtract (fun k => p < k) (lt_irrefl p) (fun k => A.entry k c)
    (entry_clearBelow hp)

theorem rowSpace_clearAbove {p : Fin m} {c : Fin n} (hp : A.entry p c = 1) :
    (A.clearAbove p c).rowSpace = A.rowSpace :=
  rowSpace_eq_of_subtract (fun k => k < p) (lt_irrefl p) (fun k => A.entry k c)
    (entry_clearAbove hp)

end Resolvent.Tableau

/-! ## Echelon forms -/

namespace Resolvent.Tableau

variable {m n : Nat}

/-! ### Choosing a pivot -/

section

variable {α : Type} [Scalar α]

/-- The row is one that may still get a pivot in the column. -/
def Usable (A : Tableau α m n) (r : Nat) (c : Fin n) (i : Fin m) : Prop :=
  r ≤ i.val ∧ Scalar.isZero (A.entry i c) = false

/-- The better of the row that is best so far and another. -/
def betterRow (magnitude : α → Float) (A : Tableau α m n) (r : Nat) (c : Fin n)
    (best : Option (Fin m × Float)) (i : Fin m) : Option (Fin m × Float) :=
  if i.val < r || Scalar.isZero (A.entry i c) then best
  else
    let size := magnitude (A.entry i c)
    match best with
    | none => some (i, size)
    | some (_, current) => if size > current || current.isNaN then some (i, size) else best

variable {magnitude : α → Float} {A : Tableau α m n} {r : Nat} {c : Fin n}

theorem choosePivot_eq :
    A.choosePivot magnitude r c = (List.finRange m).foldl (betterRow magnitude A r c) none := rfl

theorem usable_of_mem_betterRow {best : Option (Fin m × Float)} {i : Fin m}
    (hbest : ∀ x ∈ best, A.Usable r c x.1) :
    ∀ x ∈ betterRow magnitude A r c best i, A.Usable r c x.1 := by
  intro x hx
  unfold betterRow at hx
  split at hx
  · exact hbest x hx
  · next hi =>
    have husable : A.Usable r c i := by simpa [Usable, not_or] using hi
    dsimp only at hx
    split at hx
    · cases hx
      exact husable
    · split at hx
      · cases hx
        exact husable
      · exact hbest x hx

theorem betterRow_eq_none {best : Option (Fin m × Float)} {i : Fin m}
    (h : betterRow magnitude A r c best i = none) : best = none ∧ ¬ A.Usable r c i := by
  unfold betterRow at h
  split at h
  · next hi =>
    refine ⟨h, fun husable => ?_⟩
    simp only [Bool.or_eq_true, decide_eq_true_eq] at hi
    rcases hi with hi | hi
    · exact absurd husable.1 (not_le.2 hi)
    · rw [husable.2] at hi
      cases hi
  · dsimp only at h
    split at h
    · cases h
    · split at h <;> cases h

variable (magnitude A r c) in
theorem foldl_betterRow_spec (rows : List (Fin m)) {best : Option (Fin m × Float)}
    (hbest : ∀ x ∈ best, A.Usable r c x.1) :
    (∀ x ∈ rows.foldl (betterRow magnitude A r c) best, A.Usable r c x.1) ∧
      (rows.foldl (betterRow magnitude A r c) best = none →
        best = none ∧ ∀ i ∈ rows, ¬ A.Usable r c i) := by
  induction rows generalizing best with
  | nil => exact ⟨hbest, fun h => ⟨h, nofun⟩⟩
  | cons i rows ih =>
    obtain ⟨hsome, hempty⟩ := ih (usable_of_mem_betterRow hbest)
    refine ⟨hsome, fun h => ?_⟩
    obtain ⟨hi, hrows⟩ := hempty h
    obtain ⟨hbest, hi⟩ := betterRow_eq_none hi
    exact ⟨hbest, List.forall_mem_cons.2 ⟨hi, hrows⟩⟩

/-- A usable row is chosen if there is one, whatever the magnitudes are. -/
theorem choosePivot_spec (magnitude : α → Float) (A : Tableau α m n) (r : Nat) (c : Fin n) :
    match A.choosePivot magnitude r c with
    | none => ∀ i : Fin m, r ≤ i.val → Scalar.isZero (A.entry i c) = true
    | some (s, _) => A.Usable r c s := by
  obtain ⟨hsome, hempty⟩ :=
    foldl_betterRow_spec magnitude A r c (List.finRange m) (show ∀ x ∈ none, _ from nofun)
  rw [choosePivot_eq]
  generalize (List.finRange m).foldl (betterRow magnitude A r c) none = result at hsome hempty
  cases result with
  | none =>
    intro i hi
    by_contra hzero
    exact (hempty rfl).2 i (List.mem_finRange i) ⟨hi, Bool.eq_false_iff.2 hzero⟩
  | some x => exact hsome x rfl

end

/-! ### The first pass -/

/-- Row `i` leads with a one in column `c`. -/
def LeadsAt (A : Tableau Rat m n) (i : Fin m) (c : Fin n) : Prop :=
  A.entry i c = 1 ∧ ∀ j < c, A.entry i j = 0

/-- The first rows lead with ones in the columns of the pivots, and the others are zero before
column `c`. -/
structure Echelon (A : Tableau Rat m n) (pivots : List (Fin n)) (c : Nat) : Prop where
  /-- There are enough rows. -/
  length_le : pivots.length ≤ m
  /-- The pivots move to the right. -/
  sorted : pivots.Pairwise (· < ·)
  /-- The pivots are in the columns that are done. -/
  lt : ∀ j ∈ pivots, j.val < c
  /-- The rows with pivots lead there. -/
  leads : ∀ (i : Fin m) (hi : i.val < pivots.length), A.LeadsAt i pivots[i.val]
  /-- The other rows are zero in the columns that are done. -/
  zero : ∀ i : Fin m, pivots.length ≤ i.val → ∀ j : Fin n, j.val < c → A.entry i j = 0

theorem echelon_start (A : Tableau Rat m n) : A.Echelon [] 0 where
  length_le := Nat.zero_le m
  sorted := List.Pairwise.nil
  lt := nofun
  leads := fun _ hi => absurd hi (Nat.not_lt_zero _)
  zero := fun _ _ _ hj => absurd hj (Nat.not_lt_zero _)

variable {A : Tableau Rat m n} {pivots : List (Fin n)}

/-- A column without a usable entry has no pivot. -/
theorem Echelon.skip {c : Fin n} (h : A.Echelon pivots c.val)
    (hzero : ∀ i : Fin m, pivots.length ≤ i.val → A.entry i c = 0) :
    A.Echelon pivots (c.val + 1) where
  length_le := h.length_le
  sorted := h.sorted
  lt := fun j hj => Nat.lt_succ_of_lt (h.lt j hj)
  leads := h.leads
  zero := by
    intro i hi j hj
    rcases Nat.lt_or_eq_of_le (Nat.le_of_lt_succ hj) with hlt | heq
    · exact h.zero i hi j hlt
    · rw [Fin.ext heq]
      exact hzero i hi

/-- Exchanges rows, makes the entry that comes into row `r` a one, and clears the column below. -/
def makePivot (A : Tableau Rat m n) (r s : Fin m) (c : Fin n) : Tableau Rat m n :=
  ((A.swapRows r s).scaleRow r (A.entry s c)⁻¹).clearBelow r c

section

variable {r s : Fin m} {c : Fin n}

theorem entry_swapRows_self (A : Tableau Rat m n) (r s : Fin m) (j : Fin n) :
    (A.swapRows r s).entry r j = A.entry s j := by
  rw [entry_swapRows]
  split
  · next heq => rw [← heq]
  · rw [if_pos rfl]

theorem entry_scaleRow_swapRows (A : Tableau Rat m n) (k : Fin m) (j : Fin n) :
    ((A.swapRows r s).scaleRow r (A.entry s c)⁻¹).entry k j =
      if r = k then A.entry s j * (A.entry s c)⁻¹ else (A.swapRows r s).entry k j := by
  rw [entry_scaleRow]
  split
  · next heq =>
    rw [← heq, entry_swapRows_self]
    rfl
  · rfl

theorem entry_scaleRow_pivot (hne : A.entry s c ≠ 0) :
    ((A.swapRows r s).scaleRow r (A.entry s c)⁻¹).entry r c = 1 := by
  rw [entry_scaleRow_swapRows, if_pos rfl, mul_inv_cancel₀ hne]

/-- The pivot row is a multiple of the row that was chosen; multiples of it are subtracted below. -/
theorem entry_makePivot (hne : A.entry s c ≠ 0) (k : Fin m) (j : Fin n) :
    (A.makePivot r s c).entry k j =
      if r = k then A.entry s j * (A.entry s c)⁻¹
      else if r < k then (A.swapRows r s).entry k j -
        (A.swapRows r s).entry k c * (A.entry s j * (A.entry s c)⁻¹)
      else (A.swapRows r s).entry k j := by
  rw [makePivot, entry_clearBelow (entry_scaleRow_pivot hne)]
  simp only [entry_scaleRow_swapRows, if_true]
  by_cases hrk : r = k
  · rw [if_neg fun hlt : r < k => hlt.ne hrk, if_pos hrk, if_pos hrk]
  · simp only [if_neg hrk]

theorem rowSpace_makePivot (hne : A.entry s c ≠ 0) : (A.makePivot r s c).rowSpace = A.rowSpace := by
  rw [makePivot, rowSpace_clearBelow (entry_scaleRow_pivot hne),
    rowSpace_scaleRow _ _ (inv_ne_zero hne), rowSpace_swapRows]

end

/-- The rows without a pivot, exchanged or not, are zero in the columns that are done. -/
theorem Echelon.swapRows_zero {c : Nat} (h : A.Echelon pivots c) {r s : Fin m}
    (hr : pivots.length ≤ r.val) (hs : pivots.length ≤ s.val) {k : Fin m}
    (hk : pivots.length ≤ k.val) {j : Fin n} (hj : j.val < c) : (A.swapRows r s).entry k j = 0 := by
  rw [entry_swapRows]
  split
  · exact h.zero r hr j hj
  · split
    · exact h.zero s hs j hj
    · exact h.zero k hk j hj

/-- A usable entry becomes the pivot of the next row. -/
theorem Echelon.pivot {c : Fin n} (h : A.Echelon pivots c.val) {r s : Fin m}
    (hr : r.val = pivots.length) (hs : pivots.length ≤ s.val) (hne : A.entry s c ≠ 0) :
    (A.makePivot r s c).Echelon (pivots ++ [c]) (c.val + 1) where
  length_le := by
    rw [List.length_append, List.length_singleton]
    omega
  sorted := by
    refine List.pairwise_append.2 ⟨h.sorted, List.pairwise_singleton _ _, fun i hi j hj => ?_⟩
    rw [List.mem_singleton.1 hj]
    exact h.lt i hi
  lt := by
    intro j hj
    rcases List.mem_append.1 hj with hj | hj
    · exact Nat.lt_succ_of_lt (h.lt j hj)
    · rw [List.mem_singleton.1 hj]
      exact Nat.lt_succ_self _
  leads := by
    intro i hi
    rw [List.length_append, List.length_singleton] at hi
    rcases Nat.lt_or_eq_of_le (Nat.le_of_lt_succ hi) with hlt | heq
    · -- rows with earlier pivots are not touched
      have hir : i < r := Fin.lt_def.2 (hr ▸ hlt)
      have his : i ≠ s := fun heq => absurd hlt (by rw [heq]; exact not_lt.2 hs)
      have hrow : ∀ j, (A.makePivot r s c).entry i j = A.entry i j := by
        intro j
        rw [entry_makePivot hne, if_neg hir.ne', if_neg (lt_asymm hir), entry_swapRows,
          if_neg his, if_neg hir.ne]
      have hlead := h.leads i hlt
      rw [List.getElem_append_left hlt]
      exact ⟨by rw [hrow, hlead.1], fun j hj => by rw [hrow, hlead.2 j hj]⟩
    · -- the row of the new pivot
      have hri : r = i := Fin.ext (hr.trans heq.symm)
      rw [List.getElem_append_right heq.ge]
      simp only [List.getElem_singleton]
      refine ⟨?_, fun j hj => ?_⟩
      · rw [entry_makePivot hne, if_pos hri, mul_inv_cancel₀ hne]
      · rw [entry_makePivot hne, if_pos hri, h.zero s hs j hj, zero_mul]
  zero := by
    intro k hk j hj
    rw [List.length_append, List.length_singleton] at hk
    have hrk : r < k := Fin.lt_def.2 (hr ▸ hk)
    have hlow : ∀ j < c, (A.swapRows r s).entry k j = 0 := fun j hj =>
      h.swapRows_zero hr.ge hs (Nat.le_of_succ_le hk) hj
    rw [entry_makePivot hne, if_neg hrk.ne, if_pos hrk]
    -- to the left of the pivot everything is zero, and the pivot itself is a one
    rcases Nat.lt_or_eq_of_le (Nat.le_of_lt_succ hj) with hlt | heq
    · rw [hlow j hlt, h.zero s hs j hlt]
      ring
    · rw [Fin.ext heq, mul_inv_cancel₀ hne]
      ring

/-- One column: the invariant goes on, with one pivot more or not. -/
theorem Echelon.step (magnitude : Rat → Float) {c : Fin n} (h : A.Echelon pivots c.val) :
    ∃ pivots', (echelonStep magnitude (A, pivots.length) c).2 = pivots'.length ∧
      (echelonStep magnitude (A, pivots.length) c).1.Echelon pivots' (c.val + 1) ∧
      (echelonStep magnitude (A, pivots.length) c).1.rowSpace = A.rowSpace := by
  unfold echelonStep
  dsimp only
  split
  · next hr =>
    have hchoose := choosePivot_spec magnitude A pivots.length c
    split
    · next hnone =>
      rw [hnone] at hchoose
      refine ⟨pivots, rfl, h.skip fun i hi => ?_, rfl⟩
      simpa [Scalar.isZero] using hchoose i hi
    · next s _ hsome =>
      rw [hsome] at hchoose
      have hne : A.entry s c ≠ 0 := by simpa [Scalar.isZero] using hchoose.2
      have hinverse : Scalar.inverse? (A.entry s c) = some (A.entry s c)⁻¹ := by
        simp [Scalar.inverse?, Rational.inverse?, hne]
      rw [entry_swapRows_self, hinverse]
      dsimp only
      -- a one is written where there is one already
      rw [set_entry_self (x := Scalar.one) (entry_scaleRow_pivot hne)]
      exact ⟨pivots ++ [c], by rw [List.length_append]; rfl, h.pivot rfl hchoose.1 hne,
        rowSpace_makePivot hne⟩
  · next hr =>
    exact ⟨pivots, rfl, h.skip fun i hi => absurd i.isLt (by omega), rfl⟩

theorem Echelon.run (magnitude : Rat → Float) {columns : List (Fin n)} {c : Nat}
    (hcolumns : columns.map Fin.val = List.range' c columns.length) (h : A.Echelon pivots c) :
    ∃ pivots', (columns.foldl (echelonStep magnitude) (A, pivots.length)).2 = pivots'.length ∧
      (columns.foldl (echelonStep magnitude) (A, pivots.length)).1.Echelon pivots'
        (c + columns.length) ∧
      (columns.foldl (echelonStep magnitude) (A, pivots.length)).1.rowSpace = A.rowSpace := by
  induction columns generalizing A pivots c with
  | nil => exact ⟨pivots, rfl, h, rfl⟩
  | cons j columns ih =>
    rw [List.map_cons, List.length_cons, List.range'_succ, List.cons.injEq] at hcolumns
    obtain ⟨rfl, htail⟩ := hcolumns
    obtain ⟨pivots₁, hlength, hechelon, hspace⟩ := h.step magnitude
    obtain ⟨pivots₂, hrank, hechelon₂, hspace₂⟩ := ih htail hechelon
    -- the number of pivots says how many the first column has left
    have hstate : echelonStep magnitude (A, pivots.length) j =
        ((echelonStep magnitude (A, pivots.length) j).1, pivots₁.length) := by rw [← hlength]
    rw [List.foldl_cons, hstate, List.length_cons, Nat.add_comm columns.length 1, ← Nat.add_assoc]
    exact ⟨pivots₂, hrank, hechelon₂, hspace₂.trans hspace⟩

/-- The first pass ends in an echelon form with the same row space. -/
theorem exists_echelon (magnitude : Rat → Float) (A : Tableau Rat m n) :
    ∃ pivots, (A.rowEchelon magnitude).2 = pivots.length ∧
      (A.rowEchelon magnitude).1.Echelon pivots n ∧
      (A.rowEchelon magnitude).1.rowSpace = A.rowSpace := by
  have hcolumns : (List.finRange n).map Fin.val = List.range' 0 (List.finRange n).length := by
    rw [List.length_finRange, List.map_coe_finRange_eq_range, List.range_eq_range']
  obtain ⟨pivots, hrank, hechelon, hspace⟩ := (echelon_start A).run magnitude hcolumns
  rw [List.length_finRange, Nat.zero_add] at hechelon
  exact ⟨pivots, hrank, hechelon, hspace⟩

/-! ### The second pass -/

/-- An echelon form in which the columns of the pivots from row `r` on are zero apart from the
pivots. -/
structure Reduced (A : Tableau Rat m n) (pivots : List (Fin n)) (r : Nat) : Prop extends
    A.Echelon pivots n where
  /-- The other entries in the columns of the pivots are zero. -/
  clear : ∀ (q : Nat) (hq : q < pivots.length), r ≤ q → ∀ i : Fin m, i.val ≠ q →
    A.entry i pivots[q] = 0

theorem LeadsAt.leading? {i : Fin m} {c : Fin n} (h : A.LeadsAt i c) : A.leading? i = some c := by
  refine List.find?_eq_some_iff_getElem.2 ⟨?_, c.val, by simp, by simp, fun j hj => ?_⟩
  · simp [Scalar.isZero, h.1]
  · have hlt : (⟨j, hj.trans c.isLt⟩ : Fin n) < c := hj
    simp [Scalar.isZero, h.2 _ hlt]

/-- Below the row of a pivot its column is zero. -/
theorem Echelon.entry_below (h : A.Echelon pivots n) {q : Nat} (hq : q < pivots.length) {i : Fin m}
    (hi : q < i.val) : A.entry i pivots[q] = 0 := by
  rcases Nat.lt_or_ge i.val pivots.length with hlt | hge
  · exact (h.leads i hlt).2 _ (List.pairwise_iff_getElem.1 h.sorted _ _ hq hlt hi)
  · exact h.zero i hge _ (pivots[q]).isLt

/-- One row: its pivot becomes the only entry of its column. -/
theorem Reduced.step {p : Fin m} (h : A.Reduced pivots (p.val + 1)) (hp : p.val < pivots.length) :
    (A.reduceRow p).Reduced pivots p.val ∧ (A.reduceRow p).rowSpace = A.rowSpace := by
  have hlead := h.leads p hp
  have hreduce : A.reduceRow p = A.clearAbove p pivots[p.val] := by
    rw [reduceRow, hlead.leading?]
  have hentry := entry_clearAbove hlead.1
  rw [hreduce]
  refine ⟨⟨⟨h.length_le, h.sorted, h.lt, fun i hi => ?_, fun i hi j hj => ?_⟩,
    fun q hq hpq i hi => ?_⟩, rowSpace_clearAbove hlead.1⟩
  · have hleadi := h.leads i hi
    rcases lt_or_ge i p with hip | hip
    · -- the pivot row is zero up to the pivot of a row above it
      have hlt := List.pairwise_iff_getElem.1 h.sorted _ _ hi hp hip
      refine ⟨?_, fun j hj => ?_⟩
      · rw [hentry, if_pos hip, hlead.2 _ hlt, hleadi.1]
        ring
      · rw [hentry, if_pos hip, hlead.2 _ (hj.trans hlt), hleadi.2 j hj]
        ring
    · refine ⟨?_, fun j hj => ?_⟩
      · rw [hentry, if_neg (not_lt.2 hip), hleadi.1]
      · rw [hentry, if_neg (not_lt.2 hip), hleadi.2 j hj]
  · have hip : ¬ i < p := fun hip => absurd (hp.trans_le hi) (not_lt.2 hip.le)
    rw [hentry, if_neg hip, h.zero i hi j hj]
  · rw [hentry]
    rcases Nat.lt_or_eq_of_le hpq with hlt | rfl
    · have hrow := h.clear q hq hlt
      rw [hrow i hi, hrow p hlt.ne]
      split <;> ring
    · split
      · rw [hlead.1]
        ring
      · next hip =>
        have hlt : p < i := lt_of_le_of_ne (not_lt.1 hip) fun heq => hi (congrArg Fin.val heq.symm)
        exact h.entry_below hp hlt

theorem Reduced.run {rows : List (Fin m)} {k : Nat} (hrows : rows.map Fin.val = (List.range k).reverse)
    (hk : k ≤ pivots.length) (h : A.Reduced pivots k) :
    (rows.foldl reduceRow A).Reduced pivots 0 ∧ (rows.foldl reduceRow A).rowSpace = A.rowSpace := by
  induction k generalizing A rows with
  | zero =>
    obtain rfl : rows = [] := List.map_eq_nil_iff.1 hrows
    exact ⟨h, rfl⟩
  | succ k ih =>
    rw [List.range_succ, List.reverse_append, List.reverse_singleton, List.singleton_append] at hrows
    obtain ⟨p, rows, rfl, rfl, htail⟩ := List.map_eq_cons_iff.1 hrows
    obtain ⟨hreduced, hspace⟩ := h.step hk
    obtain ⟨hrun, hspace'⟩ := ih htail (Nat.le_of_succ_le hk) hreduced
    exact ⟨hrun, hspace'.trans hspace⟩

theorem map_val_filter_finRange {r : Nat} (hr : r ≤ m) :
    ((List.finRange m).filter (·.val < r)).map Fin.val = List.range r := by
  have hmap : ((List.finRange m).filter (·.val < r)).map Fin.val =
      (List.range m).filter (· < r) := by
    rw [← List.map_coe_finRange_eq_range, List.filter_map]
    rfl
  obtain ⟨k, rfl⟩ := Nat.exists_eq_add_of_le hr
  rw [hmap, List.range_add, List.filter_append, List.filter_eq_self.2, List.filter_eq_nil_iff.2,
    List.append_nil]
  · intro i hi
    obtain ⟨j, -, rfl⟩ := List.mem_map.1 hi
    simp
  · intro i hi
    simpa using hi

theorem reducedRowEchelon_eq {α : Type} [Scalar α] (magnitude : α → Float) (A : Tableau α m n) :
    A.reducedRowEchelon magnitude =
      (((List.finRange m).filter (·.val < (A.rowEchelon magnitude).2)).reverse.foldl reduceRow
        (A.rowEchelon magnitude).1, (A.rowEchelon magnitude).2) := rfl

/-- **Elimination**: whatever the magnitudes are, it ends in a reduced row echelon form with the same
row space, and counts its pivots. -/
theorem exists_reduced (magnitude : Rat → Float) (A : Tableau Rat m n) :
    ∃ pivots, (A.reducedRowEchelon magnitude).2 = pivots.length ∧
      (A.reducedRowEchelon magnitude).1.Reduced pivots 0 ∧
      (A.reducedRowEchelon magnitude).1.rowSpace = A.rowSpace := by
  obtain ⟨pivots, hrank, hechelon, hspace⟩ := exists_echelon magnitude A
  have hrows : ((List.finRange m).filter (·.val < pivots.length)).reverse.map Fin.val =
      (List.range pivots.length).reverse := by
    rw [List.map_reverse, map_val_filter_finRange hechelon.length_le]
  have hstart : (A.rowEchelon magnitude).1.Reduced pivots pivots.length :=
    ⟨hechelon, fun q hq hle => absurd hq (not_lt.2 hle)⟩
  obtain ⟨hreduced, hspace'⟩ := hstart.run hrows le_rfl
  rw [reducedRowEchelon_eq, hrank]
  exact ⟨pivots, rfl, hreduced, hspace'.trans hspace⟩

end Resolvent.Tableau

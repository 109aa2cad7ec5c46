import Resolvent.Proofs.Linear.Echelon
import Mathlib.Algebra.BigOperators.Fin
import Mathlib.Algebra.BigOperators.Ring.Finset
import Mathlib.Data.List.Perm.Subperm
import Mathlib.LinearAlgebra.Matrix.Rank

/-!
# Solutions of linear systems

A table of rational numbers with one column more than there are unknowns is a system of linear
equations, `Tableau.Solves`.  Its solutions depend on its row space alone (`Tableau.solves_congr`),
and a reduced row echelon form shows them: there is none if and only if the last column has a pivot;
otherwise the values of the columns without pivots can be chosen (`Tableau.Reduced.exists_solves`)
and decide the others.

A row space has one reduced row echelon form (`Tableau.Reduced.unique`).  Every vector of the row
space is the combination of the rows with pivots that its entries in the pivot columns say
(`Tableau.Reduced.eq_sum`).  So the pivot columns are those in which a vector of the row space can
lead (`Tableau.Reduced.mem_pivots_iff`), the rows with pivots are determined by their entries there,
and they are a basis, so that their number is the rank (`Tableau.Reduced.rank_eq`).

Whichever pivots are chosen, elimination therefore computes the reduced row echelon form and the
rank (`Tableau.reducedRowEchelon_spec`), and what it computes depends on the row space alone
(`Tableau.reducedRowEchelon_eq_iff`).
-/

namespace Resolvent.Tableau

/-! ### Systems and their solutions -/

section Systems

variable {m n : Nat}

/-- The numbers solve the equations, whose constants are in the last column. -/
def Solves (A : Tableau Rat m (n + 1)) (x : Fin n → Rat) : Prop :=
  ∀ i, ∑ j : Fin n, A.entry i j.castSucc * x j = A.entry i (Fin.last n)

theorem solves_iff_rowSpace {A : Tableau Rat m (n + 1)} {x : Fin n → Rat} :
    A.Solves x ↔ ∀ r ∈ A.rowSpace, ∑ j : Fin n, r j.castSucc * x j = r (Fin.last n) := by
  refine ⟨fun h r hr => ?_, fun h i => h _ (A.entry_mem_rowSpace i)⟩
  induction hr using Submodule.span_induction with
  | mem r hr =>
    obtain ⟨i, rfl⟩ := hr
    exact h i
  | zero => simp
  | add r s _ _ hr hs => simp only [Pi.add_apply, add_mul, Finset.sum_add_distrib, hr, hs]
  | smul k r _ hr => simp only [Pi.smul_apply, smul_eq_mul, mul_assoc, ← Finset.mul_sum, hr]

/-- Systems with the same row space have the same solutions. -/
theorem solves_congr {m' : Nat} {A : Tableau Rat m (n + 1)} {B : Tableau Rat m' (n + 1)}
    (h : A.rowSpace = B.rowSpace) (x : Fin n → Rat) : A.Solves x ↔ B.Solves x := by
  rw [solves_iff_rowSpace, solves_iff_rowSpace, h]

/-! ### Pivots -/

theorem getElem_add_le {N : Nat} {pivots : List (Fin N)} (h : pivots.Pairwise (· < ·)) {i k : Nat}
    (hk : i + k < pivots.length) : (pivots[i]).val + k ≤ (pivots[i + k]).val := by
  induction k with
  | zero => exact le_rfl
  | succ k ih =>
    have hstep : (pivots[i + k]).val < (pivots[i + (k + 1)]).val :=
      List.pairwise_iff_getElem.1 h _ _ (by omega) hk (by omega)
    have hprev := ih (by omega)
    omega

/-- Pivots in all columns but the last are in order. -/
theorem getElem_eq_castSucc {pivots : List (Fin (n + 1))} (h : pivots.Pairwise (· < ·))
    (hlength : pivots.length = n) (hlast : Fin.last n ∉ pivots) (k : Fin n) :
    pivots.get ⟨k.val, by omega⟩ = k.castSucc := by
  have hk : k.val < pivots.length := by omega
  -- the pivots move on by one at least, from the first and to the last
  have hlow := getElem_add_le h (i := 0) (k := k.val) (by omega)
  have hhigh := getElem_add_le h (i := k.val) (k := n - 1 - k.val) (by omega)
  have hend : k.val + (n - 1 - k.val) < pivots.length := by omega
  have htop : pivots[k.val + (n - 1 - k.val)] ≠ Fin.last n :=
    fun heq => hlast (heq ▸ List.getElem_mem _)
  have hlt := Fin.val_lt_last htop
  refine Fin.ext ?_
  simp only [Nat.zero_add] at hlow
  change (pivots[k.val]).val = k.val
  omega

theorem length_le_of_last_notMem {pivots : List (Fin (n + 1))} (h : pivots.Pairwise (· < ·))
    (hlast : Fin.last n ∉ pivots) : pivots.length ≤ n := by
  have hnodup : pivots.Nodup := h.imp ne_of_lt
  have hsubset : pivots ⊆ (List.finRange n).map Fin.castSucc := by
    intro j hj
    have hne : j ≠ Fin.last n := fun heq => hlast (heq ▸ hj)
    exact List.mem_map.2 ⟨j.castPred hne, List.mem_finRange _, Fin.castSucc_castPred j hne⟩
  have hle := (List.subperm_of_subset hnodup hsubset).length_le
  rwa [List.length_map, List.length_finRange] at hle

/-- With fewer pivots than unknowns, some unknown has none. -/
theorem exists_castSucc_notMem {pivots : List (Fin (n + 1))} (hlength : pivots.length < n) :
    ∃ j : Fin n, j.castSucc ∉ pivots := by
  by_contra hall
  have hsubset : (List.finRange n).map Fin.castSucc ⊆ pivots := by
    intro c hc
    obtain ⟨j, -, rfl⟩ := List.mem_map.1 hc
    exact not_not.1 fun hj => hall ⟨j, hj⟩
  have hnodup : ((List.finRange n).map Fin.castSucc).Nodup :=
    (List.nodup_finRange n).map (Fin.castSucc_injective n)
  have hle := (List.subperm_of_subset hnodup hsubset).length_le
  rw [List.length_map, List.length_finRange] at hle
  omega

/-! ### Reduced systems -/

/-- The value that is chosen for an unknown without a pivot, zero for the others. -/
def freeValue (pivots : List (Fin (n + 1))) (z : Fin n → Rat) (j : Fin n) : Rat :=
  if j.castSucc ∈ pivots then 0 else z j

/-- What the unknowns without pivots leave of the constant of a row. -/
def remainder (A : Tableau Rat m (n + 1)) (pivots : List (Fin (n + 1))) (z : Fin n → Rat)
    (i : Fin m) : Rat :=
  A.entry i (Fin.last n) - ∑ j, A.entry i j.castSucc * freeValue pivots z j

/-- What is left for an unknown with a pivot, zero for the others. -/
def boundValue (A : Tableau Rat m (n + 1)) (pivots : List (Fin (n + 1))) (z : Fin n → Rat)
    (j : Fin n) : Rat :=
  if j.castSucc ∈ pivots then
    if hi : pivots.idxOf j.castSucc < m then remainder A pivots z ⟨_, hi⟩ else 0
  else 0

namespace Reduced

variable {A : Tableau Rat m (n + 1)} {pivots : List (Fin (n + 1))} (h : A.Reduced pivots 0)

include h

/-- In the column of a pivot only the pivot is not zero. -/
theorem entry_pivot {q : Nat} (hq : q < pivots.length) (i : Fin m) :
    A.entry i pivots[q] = if i.val = q then 1 else 0 := by
  split
  · next hi =>
    subst hi
    exact (h.leads i hq).1
  · next hi => exact h.clear q hq (Nat.zero_le q) i hi

theorem row_zero {i : Fin m} (hi : pivots.length ≤ i.val) (j : Fin (n + 1)) :
    A.entry i j = 0 := h.zero i hi j j.isLt

/-- A row without coefficients and with a constant is one whose pivot is in the last column. -/
theorem last_mem_iff :
    Fin.last n ∈ pivots ↔
      ∃ i, (∀ j : Fin n, A.entry i j.castSucc = 0) ∧ A.entry i (Fin.last n) ≠ 0 := by
  constructor
  · intro hmem
    obtain ⟨q, hq, hlast⟩ := List.getElem_of_mem hmem
    have hlead := h.leads ⟨q, hq.trans_le h.length_le⟩ hq
    dsimp only at hlead
    rw [hlast] at hlead
    refine ⟨_, fun j => hlead.2 _ (Fin.castSucc_lt_last j), ?_⟩
    rw [hlead.1]
    exact one_ne_zero
  · rintro ⟨i, hzero, hne⟩
    rcases Nat.lt_or_ge i.val pivots.length with hlt | hge
    · by_contra hlast
      have hnotlast : pivots[i.val] ≠ Fin.last n := fun heq => hlast (heq ▸ List.getElem_mem hlt)
      have hone := (h.leads i hlt).1
      rw [← Fin.castSucc_castPred _ hnotlast, hzero] at hone
      exact zero_ne_one hone
    · exact absurd (h.row_zero hge (Fin.last n)) hne

/-- A pivot in the last column contradicts the equations. -/
theorem not_solves (hlast : Fin.last n ∈ pivots) (x : Fin n → Rat) : ¬ A.Solves x := by
  intro hx
  obtain ⟨i, hzero, hne⟩ := h.last_mem_iff.1 hlast
  refine hne ?_
  rw [← hx i]
  exact Finset.sum_eq_zero fun j _ => by rw [hzero, zero_mul]

/-- The unknowns with pivots make up for what the others leave of each constant. -/
theorem sum_boundValue (hlast : Fin.last n ∉ pivots) (z : Fin n → Rat) (i : Fin m) :
    ∑ j, A.entry i j.castSucc * boundValue A pivots z j = remainder A pivots z i := by
  rcases Nat.lt_or_ge i.val pivots.length with hlt | hge
  · have hnotlast : pivots[i.val] ≠ Fin.last n := fun heq => hlast (heq ▸ List.getElem_mem hlt)
    have hcast := Fin.castSucc_castPred _ hnotlast
    have hnodup : pivots.Nodup := h.sorted.imp ne_of_lt
    have hindex : pivots.idxOf pivots[i.val] = i.val := hnodup.idxOf_getElem _ hlt
    -- of the unknowns with pivots, only that of the row itself occurs in the row
    rw [Finset.sum_eq_single (pivots[i.val].castPred hnotlast)]
    · have hmem : pivots[i.val] ∈ pivots := List.getElem_mem hlt
      simp only [boundValue, hcast, h.entry_pivot hlt, if_pos, one_mul, hindex, i.isLt, dif_pos,
        hmem]
    · intro j _ hne
      by_cases hj : j.castSucc ∈ pivots
      · have hpivot := h.entry_pivot (List.idxOf_lt_length_iff.2 hj) i
        rw [List.getElem_idxOf] at hpivot
        rw [hpivot, if_neg, zero_mul]
        intro heq
        refine hne (Fin.castSucc_injective n ?_)
        rw [hcast, ← List.getElem_idxOf (List.idxOf_lt_length_iff.2 hj)]
        simp only [heq]
      · rw [boundValue, if_neg hj, mul_zero]
    · exact fun hnot => absurd (Finset.mem_univ _) hnot
  · simp [remainder, h.row_zero hge]

/-- Without a pivot in the last column, the unknowns without pivots may have any values. -/
theorem exists_solves (hlast : Fin.last n ∉ pivots) (z : Fin n → Rat) :
    ∃ x, A.Solves x ∧ ∀ j, j.castSucc ∉ pivots → x j = z j := by
  refine ⟨fun j => freeValue pivots z j + boundValue A pivots z j, fun i => ?_, fun j hj => ?_⟩
  · simp only [mul_add, Finset.sum_add_distrib, h.sum_boundValue hlast, remainder]
    ring
  · simp only [freeValue, boundValue, if_neg hj, add_zero]

/-- With as many pivots as unknowns, the last column is the solution. -/
theorem solves_iff (hlength : pivots.length = n) (hlast : Fin.last n ∉ pivots) (x : Fin n → Rat) :
    A.Solves x ↔ ∀ k : Fin n,
      x k = A.entry ⟨k.val, k.isLt.trans_le (hlength ▸ h.length_le)⟩ (Fin.last n) := by
  -- with a pivot everywhere, the coefficients are those of the identity
  have hcolumn : ∀ (i : Fin m) (j : Fin n),
      A.entry i j.castSucc = if i.val = j.val then 1 else 0 := by
    intro i j
    have hj : j.val < pivots.length := by omega
    rw [← getElem_eq_castSucc h.sorted hlength hlast j, List.get_eq_getElem, h.entry_pivot hj]
  have hsum : ∀ k : Fin n, ∑ j : Fin n,
      A.entry ⟨k.val, k.isLt.trans_le (hlength ▸ h.length_le)⟩ j.castSucc * x j = x k := by
    intro k
    rw [Finset.sum_eq_single k]
    · rw [hcolumn, if_pos rfl, one_mul]
    · intro j _ hne
      rw [hcolumn, if_neg, zero_mul]
      exact fun heq => hne (Fin.ext heq.symm)
    · exact fun hnot => absurd (Finset.mem_univ _) hnot
  constructor
  · intro hx k
    rw [← hx, hsum]
  · intro hx i
    rcases Nat.lt_or_ge i.val pivots.length with hlt | hge
    · have hk := hsum ⟨i.val, by omega⟩
      rw [hx] at hk
      exact hk
    · simp [h.row_zero hge]

/-- With fewer pivots than unknowns, a system that can be solved has two solutions. -/
theorem exists_ne (hlength : pivots.length < n) (hlast : Fin.last n ∉ pivots) :
    ∃ x y, A.Solves x ∧ A.Solves y ∧ x ≠ y := by
  obtain ⟨j, hj⟩ := exists_castSucc_notMem hlength
  -- the unknown without a pivot may be zero or one
  obtain ⟨x, hx, hxj⟩ := h.exists_solves hlast fun _ => 0
  obtain ⟨y, hy, hyj⟩ := h.exists_solves hlast fun _ => 1
  refine ⟨x, y, hx, hy, fun heq => ?_⟩
  have hzero := hxj j hj
  rw [heq, hyj j hj] at hzero
  exact one_ne_zero hzero

end Reduced

end Systems

/-! ### The reduced row echelon form -/

variable {m n : Nat} {A B : Tableau Rat m n} {pivots pivots' : List (Fin n)}

namespace Reduced

/-- The row with the pivot of a number. -/
def pivotRow (h : A.Reduced pivots 0) (q : Fin pivots.length) : Fin n → Rat :=
  A.entry ⟨q.val, q.isLt.trans_le h.length_le⟩

theorem pivotRow_pivot (h : A.Reduced pivots 0) (q r : Fin pivots.length) :
    h.pivotRow q pivots[r.val] = if q = r then 1 else 0 := by
  rcases eq_or_ne q r with rfl | hne
  · rw [if_pos rfl]
    exact (h.leads _ q.isLt).1
  · rw [if_neg hne]
    exact h.clear r.val r.isLt (Nat.zero_le _) _ fun heq => hne (Fin.ext heq)

/-- A vector of the row space is the combination of the rows with pivots that its entries in the
pivot columns say. -/
theorem eq_sum (h : A.Reduced pivots 0) {r : Fin n → Rat} (hr : r ∈ A.rowSpace) :
    r = ∑ q : Fin pivots.length, r pivots[q.val] • h.pivotRow q := by
  induction hr using Submodule.span_induction with
  | mem r hr =>
    obtain ⟨i, rfl⟩ := hr
    rcases Nat.lt_or_ge i.val pivots.length with hlt | hge
    · -- a row with a pivot has a one there and zeros at the other pivots
      rw [Finset.sum_eq_single (⟨i.val, hlt⟩ : Fin pivots.length)]
      · rw [(h.leads i hlt).1, one_smul]
        rfl
      · intro q _ hne
        rw [h.clear q.val q.isLt (Nat.zero_le _) i fun heq => hne (Fin.ext heq.symm), zero_smul]
      · exact fun hnot => absurd (Finset.mem_univ _) hnot
    · have hzero : A.entry i = 0 := funext fun j => h.zero i hge j j.isLt
      rw [hzero]
      simp
  | zero => simp
  | add r s _ _ hr hs =>
    simp only [Pi.add_apply, add_smul, Finset.sum_add_distrib]
    rw [← hr, ← hs]
  | smul k r _ hr =>
    simp only [Pi.smul_apply, smul_eq_mul, mul_smul, ← Finset.smul_sum]
    rw [← hr]

/-- The pivots are in the columns in which a vector of the row space can lead. -/
theorem mem_pivots_iff (h : A.Reduced pivots 0) {c : Fin n} :
    c ∈ pivots ↔ ∃ r ∈ A.rowSpace, r c ≠ 0 ∧ ∀ j < c, r j = 0 := by
  constructor
  · intro hc
    obtain ⟨q, hq, rfl⟩ := List.getElem_of_mem hc
    have hlead := h.leads ⟨q, hq.trans_le h.length_le⟩ hq
    exact ⟨_, A.entry_mem_rowSpace _, by rw [hlead.1]; exact one_ne_zero, hlead.2⟩
  · rintro ⟨r, hr, hne, hzero⟩
    by_contra hc
    refine hne ?_
    rw [h.eq_sum hr, Finset.sum_apply]
    refine Finset.sum_eq_zero fun q _ => ?_
    rw [Pi.smul_apply, smul_eq_mul]
    -- left of the column the vector is zero, and right of it the rows with pivots are
    rcases lt_trichotomy pivots[q.val] c with hlt | heq | hgt
    · rw [hzero _ hlt, zero_mul]
    · exact absurd (heq ▸ List.getElem_mem q.isLt) hc
    · rw [pivotRow, (h.leads ⟨q.val, q.isLt.trans_le h.length_le⟩ q.isLt).2 c hgt, mul_zero]

theorem pivots_eq (hA : A.Reduced pivots 0) (hB : B.Reduced pivots' 0)
    (hspace : A.rowSpace = B.rowSpace) : pivots = pivots' := by
  have hmem : ∀ c, c ∈ pivots ↔ c ∈ pivots' := fun c => by
    rw [hA.mem_pivots_iff, hB.mem_pivots_iff, hspace]
  have hperm := (List.perm_ext_iff_of_nodup (hA.sorted.imp ne_of_lt) (hB.sorted.imp ne_of_lt)).2 hmem
  exact hperm.eq_of_pairwise (fun a b _ _ hab hba => absurd hab (lt_asymm hba)) hA.sorted hB.sorted

/-- **Uniqueness**: tables in reduced row echelon form with the same row space are equal. -/
theorem unique (hA : A.Reduced pivots 0) (hB : B.Reduced pivots' 0)
    (hspace : A.rowSpace = B.rowSpace) : A = B ∧ pivots = pivots' := by
  obtain rfl := hA.pivots_eq hB hspace
  refine ⟨ext_entry fun i j => ?_, rfl⟩
  rcases Nat.lt_or_ge i.val pivots.length with hlt | hge
  · -- the row of the one is a combination of the rows of the other, and which one its pivots say
    have hrow : A.entry i ∈ B.rowSpace := hspace ▸ A.entry_mem_rowSpace i
    have hpivots : ∀ q : Fin pivots.length,
        A.entry i pivots[q.val] = B.entry i pivots[q.val] := fun q =>
      (hA.pivotRow_pivot ⟨i.val, hlt⟩ q).trans (hB.pivotRow_pivot ⟨i.val, hlt⟩ q).symm
    rw [hB.eq_sum hrow, hB.eq_sum (B.entry_mem_rowSpace i)]
    simp only [hpivots]
  · rw [hA.zero i hge j j.isLt, hB.zero i hge j j.isLt]

theorem linearIndependent_pivotRow (h : A.Reduced pivots 0) :
    LinearIndependent Rat h.pivotRow := by
  refine Fintype.linearIndependent_iff.2 fun g hg q => ?_
  -- the coefficient of a row is the entry of the combination in the column of its pivot
  have hentry := congrFun hg pivots[q.val]
  rw [Finset.sum_apply, Finset.sum_eq_single q] at hentry
  · simpa [h.pivotRow_pivot] using hentry
  · intro r _ hne
    rw [Pi.smul_apply, h.pivotRow_pivot, if_neg hne, smul_zero]
  · exact fun hnot => absurd (Finset.mem_univ _) hnot

theorem span_pivotRow (h : A.Reduced pivots 0) :
    Submodule.span Rat (Set.range h.pivotRow) = A.rowSpace := by
  refine le_antisymm (Submodule.span_le.2 ?_) fun r hr => ?_
  · rintro _ ⟨q, rfl⟩
    exact A.entry_mem_rowSpace _
  · rw [h.eq_sum hr]
    exact Submodule.sum_mem _ fun q _ =>
      Submodule.smul_mem _ _ (Submodule.subset_span ⟨q, rfl⟩)

end Reduced

/-- The table as a matrix. -/
def matrix (A : Tableau Rat m n) : Matrix (Fin m) (Fin n) Rat := Matrix.of A.entry

/-- The number of pivots is the rank. -/
theorem Reduced.rank_eq (h : B.Reduced pivots 0) (hspace : B.rowSpace = A.rowSpace) :
    A.matrix.rank = pivots.length := by
  have hrank : A.matrix.rank = Module.finrank Rat A.rowSpace := A.matrix.rank_eq_finrank_span_row
  rw [hrank, ← hspace, ← h.span_pivotRow, finrank_span_eq_card h.linearIndependent_pivotRow,
    Fintype.card_fin]

/-- Elimination computes the same of tables with the same row space. -/
theorem reducedRowEchelon_eq_of_rowSpace_eq (magnitude magnitude' : Rat → Float)
    (h : A.rowSpace = B.rowSpace) :
    A.reducedRowEchelon magnitude = B.reducedRowEchelon magnitude' := by
  obtain ⟨pivots, hrank, hreduced, hspace⟩ := exists_reduced magnitude A
  obtain ⟨pivots', hrank', hreduced', hspace'⟩ := exists_reduced magnitude' B
  obtain ⟨heq, rfl⟩ := hreduced.unique hreduced' (hspace.trans (h.trans hspace'.symm))
  exact Prod.ext heq (hrank.trans hrank'.symm)

/-- **Elimination computes the reduced row echelon form**: whatever the magnitudes are, the row space
stays, the first rows lead with ones in columns from left to right that are zero elsewhere, the other
rows are zero, and the number of the first rows is the rank, which the first pass finds already. -/
theorem reducedRowEchelon_spec (magnitude : Rat → Float) (A : Tableau Rat m n) :
    ∃ (R : Tableau Rat m n) (k : Nat) (hk : k ≤ m) (column : Fin k → Fin n),
      A.reducedRowEchelon magnitude = (R, k) ∧ R.rowSpace = A.rowSpace ∧ StrictMono column ∧
        (∀ q : Fin k, R.LeadsAt (q.castLE hk) (column q)) ∧
        (∀ (q : Fin k) (i : Fin m), i ≠ q.castLE hk → R.entry i (column q) = 0) ∧
        (∀ i : Fin m, k ≤ i.val → ∀ j, R.entry i j = 0) ∧
        k = A.matrix.rank ∧ A.rank magnitude = k ∧ (A.rowEchelon magnitude).2 = k := by
  obtain ⟨pivots, hrank, hreduced, hspace⟩ := exists_reduced magnitude A
  refine ⟨(A.reducedRowEchelon magnitude).1, pivots.length, hreduced.length_le,
    fun q => pivots[q.val], Prod.ext rfl hrank, hspace, ?_, fun q => hreduced.leads _ q.isLt,
    fun q i hi => ?_, fun i hi j => hreduced.zero i hi j j.isLt, (hreduced.rank_eq hspace).symm,
    hrank, hrank⟩
  · exact fun q r hqr => List.pairwise_iff_getElem.1 hreduced.sorted _ _ q.isLt r.isLt hqr
  · exact hreduced.clear q.val q.isLt (Nat.zero_le _) i fun heq => hi (Fin.ext heq)

/-- **The reduced row echelon form depends on the row space alone**, whatever the magnitudes are that
choose the pivots; in particular it is its own reduced row echelon form. -/
theorem reducedRowEchelon_eq_iff (magnitude magnitude' : Rat → Float) (A B : Tableau Rat m n) :
    (A.reducedRowEchelon magnitude = B.reducedRowEchelon magnitude' ↔ A.rowSpace = B.rowSpace) ∧
      (A.reducedRowEchelon magnitude).1.reducedRowEchelon magnitude' =
        A.reducedRowEchelon magnitude := by
  have hspace (magnitude : Rat → Float) (A : Tableau Rat m n) :
      (A.reducedRowEchelon magnitude).1.rowSpace = A.rowSpace := by
    obtain ⟨_, -, -, hspace⟩ := exists_reduced magnitude A
    exact hspace
  refine ⟨⟨fun h => ?_, reducedRowEchelon_eq_of_rowSpace_eq _ _⟩,
    reducedRowEchelon_eq_of_rowSpace_eq _ _ (hspace magnitude A)⟩
  rw [← hspace magnitude A, h, hspace magnitude' B]

end Resolvent.Tableau

import Resolvent.Proofs.Linear.Echelon

/-!
# Elimination along a map of scalars

A map of scalars that agrees with their operations, `ScalarMap`, agrees with elimination: the
reduced row echelon form of the images is the image of the reduced row echelon form
(`Tableau.reducedRowEchelon_map`).  The magnitudes of the images decide about the exchange of rows
on both sides.

What holds of all entries of a tableau, and is kept by the operations on scalars, holds of all
entries of its reduced row echelon form (`Tableau.Entries.reducedRowEchelon`), whichever pivots are
chosen.
-/

namespace Resolvent

/-! ### Maps of scalars -/

section Maps

variable {α β : Type} [Scalar α] [Scalar β]

/-- A map of scalars agrees with their operations. -/
structure ScalarMap (φ : α → β) : Prop where
  /-- Zero goes to zero. -/
  zero : φ Scalar.zero = Scalar.zero
  /-- One goes to one. -/
  one : φ Scalar.one = Scalar.one
  /-- Sums go to sums. -/
  add : ∀ a b, φ (Scalar.add a b) = Scalar.add (φ a) (φ b)
  /-- Products go to products. -/
  mul : ∀ a b, φ (Scalar.mul a b) = Scalar.mul (φ a) (φ b)
  /-- Opposites go to opposites. -/
  neg : ∀ a, φ (Scalar.neg a) = Scalar.neg (φ a)
  /-- The map keeps what is known to be zero. -/
  isZero : ∀ a, Scalar.isZero (φ a) = Scalar.isZero a
  /-- Inverses go to inverses. -/
  inverse : ∀ a, Scalar.inverse? (φ a) = (Scalar.inverse? a).map φ

namespace Tableau

variable {m n : Nat}

/-- The images of the entries. -/
def map (φ : α → β) (A : Tableau α m n) : Tableau β m n := ⟨A.rows.map fun row => row.map φ⟩

omit [Scalar α] [Scalar β] in
theorem entry_map (φ : α → β) (A : Tableau α m n) (i : Fin m) (j : Fin n) :
    (A.map φ).entry i j = φ (A.entry i j) := by
  simp [map, entry]

omit [Scalar α] [Scalar β] in
theorem set_map (φ : α → β) (A : Tableau α m n) (i : Fin m) (j : Fin n) (x : α) :
    (A.map φ).set i j (φ x) = (A.set i j x).map φ := by
  refine ext_entry fun i' j' => ?_
  rw [entry_map, entry_set, entry_set, entry_map]
  split <;> rfl

omit [Scalar α] [Scalar β] in
theorem swapRows_map (φ : α → β) (A : Tableau α m n) (i j : Fin m) :
    (A.map φ).swapRows i j = (A.swapRows i j).map φ := by
  refine ext_entry fun k l => ?_
  simp only [entry_map, entry_swapRows]
  split
  · rfl
  · split <;> rfl

variable {φ : α → β} (hφ : ScalarMap φ)

include hφ

theorem scaleRow_map (A : Tableau α m n) (i : Fin m) (k : α) :
    (A.map φ).scaleRow i (φ k) = (A.scaleRow i k).map φ := by
  refine ext_entry fun i' j => ?_
  simp only [entry_map, entry_scaleRow, ← hφ.mul]
  split <;> rfl

theorem addScaledRow_map (A : Tableau α m n) (t s : Fin m) (k : α) :
    (A.map φ).addScaledRow t s (φ k) = (A.addScaledRow t s k).map φ := by
  refine ext_entry fun i j => ?_
  simp only [entry_map, entry_addScaledRow, hφ.isZero, ← hφ.mul, ← hφ.add]
  split
  · split <;> rfl
  · rfl

theorem clearEntry_map (A : Tableau α m n) (i p : Fin m) (c : Fin n) :
    (A.map φ).clearEntry i p c = (A.clearEntry i p c).map φ := by
  unfold clearEntry
  rw [entry_map, hφ.isZero]
  split
  · rfl
  · rw [← hφ.neg, addScaledRow_map hφ, ← hφ.zero, set_map]

theorem foldl_clearEntry_map (which : Fin m → Prop) [DecidablePred which] (p : Fin m) (c : Fin n)
    (rows : List (Fin m)) (A : Tableau α m n) :
    rows.foldl (fun A i => if which i then A.clearEntry i p c else A) (A.map φ) =
      (rows.foldl (fun A i => if which i then A.clearEntry i p c else A) A).map φ := by
  induction rows generalizing A with
  | nil => rfl
  | cons i rows ih =>
    rw [List.foldl_cons, List.foldl_cons, ← ih]
    congr 1
    split
    · exact clearEntry_map hφ A i p c
    · rfl

theorem clearBelow_map (A : Tableau α m n) (p : Fin m) (c : Fin n) :
    (A.map φ).clearBelow p c = (A.clearBelow p c).map φ :=
  foldl_clearEntry_map hφ (fun i => p < i) p c _ A

theorem clearAbove_map (A : Tableau α m n) (p : Fin m) (c : Fin n) :
    (A.map φ).clearAbove p c = (A.clearAbove p c).map φ :=
  foldl_clearEntry_map hφ (fun i => i < p) p c _ A

theorem choosePivot_map (magnitude : β → Float) (A : Tableau α m n) (r : Nat) (c : Fin n) :
    (A.map φ).choosePivot magnitude r c = A.choosePivot (magnitude ∘ φ) r c := by
  simp only [choosePivot, entry_map, hφ.isZero, Function.comp_apply]

theorem echelonStep_map (magnitude : β → Float) (A : Tableau α m n) (r : Nat) (c : Fin n) :
    echelonStep magnitude (A.map φ, r) c =
      ((echelonStep (magnitude ∘ φ) (A, r) c).1.map φ,
        (echelonStep (magnitude ∘ φ) (A, r) c).2) := by
  unfold echelonStep
  dsimp only
  rw [choosePivot_map hφ]
  split
  · next hr =>
    split
    · rfl
    · next s _ _ =>
      -- the same row is chosen, and its entry has an inverse on both sides or on none
      rw [swapRows_map, entry_map, hφ.inverse]
      cases Scalar.inverse? ((A.swapRows ⟨r, hr⟩ s).entry ⟨r, hr⟩ c) with
      | none => rfl
      | some k =>
        simp only [Option.map_some]
        rw [scaleRow_map hφ, ← hφ.one, set_map, clearBelow_map hφ]
  · rfl

theorem rowEchelon_map (magnitude : β → Float) (A : Tableau α m n) :
    (A.map φ).rowEchelon magnitude =
      ((A.rowEchelon (magnitude ∘ φ)).1.map φ, (A.rowEchelon (magnitude ∘ φ)).2) := by
  have hfold : ∀ (columns : List (Fin n)) (A : Tableau α m n) (r : Nat),
      columns.foldl (echelonStep magnitude) (A.map φ, r) =
        ((columns.foldl (echelonStep (magnitude ∘ φ)) (A, r)).1.map φ,
          (columns.foldl (echelonStep (magnitude ∘ φ)) (A, r)).2) := by
    intro columns
    induction columns with
    | nil => exact fun _ _ => rfl
    | cons c columns ih =>
      intro A r
      rw [List.foldl_cons, List.foldl_cons, echelonStep_map hφ, ih]
  exact hfold _ A 0

theorem leading?_map (A : Tableau α m n) (i : Fin m) : (A.map φ).leading? i = A.leading? i := by
  simp only [leading?, entry_map, hφ.isZero]

theorem reduceRow_map (A : Tableau α m n) (p : Fin m) :
    (A.map φ).reduceRow p = (A.reduceRow p).map φ := by
  unfold reduceRow
  rw [leading?_map hφ]
  split
  · rfl
  · exact clearAbove_map hφ A p _

/-- Elimination agrees with maps of scalars. -/
theorem reducedRowEchelon_map (magnitude : β → Float) (A : Tableau α m n) :
    (A.map φ).reducedRowEchelon magnitude =
      ((A.reducedRowEchelon (magnitude ∘ φ)).1.map φ,
        (A.reducedRowEchelon (magnitude ∘ φ)).2) := by
  have hfold : ∀ (rows : List (Fin m)) (A : Tableau α m n),
      rows.foldl reduceRow (A.map φ) = (rows.foldl reduceRow A).map φ := by
    intro rows
    induction rows with
    | nil => exact fun _ => rfl
    | cons p rows ih =>
      intro A
      rw [List.foldl_cons, List.foldl_cons, reduceRow_map hφ, ih]
  rw [reducedRowEchelon_eq, reducedRowEchelon_eq, rowEchelon_map hφ, hfold]

end Tableau

end Maps

/-! ### Classes of scalars -/

variable {α : Type} [Scalar α]

/-- A class of scalars that contains zero and one and that no operation leads out of. -/
structure ScalarClosed (P : α → Prop) : Prop where
  zero : P Scalar.zero
  one : P Scalar.one
  add : ∀ {a b}, P a → P b → P (Scalar.add a b)
  mul : ∀ {a b}, P a → P b → P (Scalar.mul a b)
  neg : ∀ {a}, P a → P (Scalar.neg a)
  inverse : ∀ {a b}, P a → Scalar.inverse? a = some b → P b

namespace Tableau

variable {m n : Nat} {P : α → Prop} {A : Tableau α m n}

omit [Scalar α] in
/-- All entries are in a class. -/
def Entries (P : α → Prop) (A : Tableau α m n) : Prop := ∀ i j, P (A.entry i j)

namespace Entries

omit [Scalar α] in
theorem set (h : A.Entries P) (i : Fin m) (j : Fin n) {x : α} (hx : P x) :
    (A.set i j x).Entries P := by
  intro i' j'
  rw [entry_set]
  split
  · exact hx
  · exact h i' j'

omit [Scalar α] in
theorem swapRows (h : A.Entries P) (i j : Fin m) : (A.swapRows i j).Entries P := by
  intro k l
  rw [entry_swapRows]
  split
  · exact h _ _
  · split
    · exact h _ _
    · exact h _ _

omit [Scalar α] in
theorem foldl {ι : Type} {f : Tableau α m n → ι → Tableau α m n}
    (hf : ∀ A i, A.Entries P → (f A i).Entries P) (h : A.Entries P) (is : List ι) :
    (is.foldl f A).Entries P := by
  induction is generalizing A with
  | nil => exact h
  | cons i is ih => exact ih (hf A i h)

variable (hP : ScalarClosed P)

include hP

theorem scaleRow (h : A.Entries P) (i : Fin m) {k : α} (hk : P k) : (A.scaleRow i k).Entries P := by
  intro i' j
  rw [entry_scaleRow]
  split
  · exact hP.mul (h _ _) hk
  · exact h _ _

theorem addScaledRow (h : A.Entries P) (t s : Fin m) {k : α} (hk : P k) :
    (A.addScaledRow t s k).Entries P := by
  intro i j
  rw [entry_addScaledRow]
  split
  · split
    · exact h _ _
    · exact hP.add (h _ _) (hP.mul (h _ _) hk)
  · exact h _ _

theorem clearEntry (h : A.Entries P) (i p : Fin m) (c : Fin n) : (A.clearEntry i p c).Entries P := by
  unfold Tableau.clearEntry
  split
  · exact h
  · exact (h.addScaledRow hP _ _ (hP.neg (h i c))).set _ _ hP.zero

theorem clearBelow (h : A.Entries P) (p : Fin m) (c : Fin n) : (A.clearBelow p c).Entries P :=
  h.foldl (fun A i hA => by
    split
    · exact hA.clearEntry hP _ _ _
    · exact hA) _

theorem clearAbove (h : A.Entries P) (p : Fin m) (c : Fin n) : (A.clearAbove p c).Entries P :=
  h.foldl (fun A i hA => by
    split
    · exact hA.clearEntry hP _ _ _
    · exact hA) _

theorem echelonStep (magnitude : α → Float) (h : A.Entries P) (r : Nat) (c : Fin n) :
    (Tableau.echelonStep magnitude (A, r) c).1.Entries P := by
  unfold Tableau.echelonStep
  dsimp only
  split
  · split
    · exact h
    · have hswap := h.swapRows ⟨r, ‹r < m›⟩
      split
      · exact hswap _
      · next hk =>
        have hk := hP.inverse (hswap _ _ _) hk
        exact (((hswap _).scaleRow hP _ hk).set _ _ hP.one).clearBelow hP _ _
  · exact h

theorem rowEchelon (magnitude : α → Float) (h : A.Entries P) :
    (A.rowEchelon magnitude).1.Entries P := by
  have hfold : ∀ (columns : List (Fin n)) (state : Tableau α m n × Nat), state.1.Entries P →
      (columns.foldl (Tableau.echelonStep magnitude) state).1.Entries P := by
    intro columns
    induction columns with
    | nil => exact fun _ h => h
    | cons c columns ih => exact fun state h => ih _ (h.echelonStep hP magnitude state.2 c)
  exact hfold _ _ h

theorem reduceRow (h : A.Entries P) (p : Fin m) : (A.reduceRow p).Entries P := by
  unfold Tableau.reduceRow
  split
  · exact h
  · exact h.clearAbove hP p _

/-- Elimination does not lead out of a class that the operations on scalars do not lead out of. -/
theorem reducedRowEchelon (magnitude : α → Float) (h : A.Entries P) :
    (A.reducedRowEchelon magnitude).1.Entries P := by
  rw [reducedRowEchelon_eq]
  exact (h.rowEchelon hP magnitude).foldl (fun A p hA => hA.reduceRow hP p) _

end Entries

end Tableau

end Resolvent

import Mathlib.Data.List.Induction
import Resolvent.Term.Basic

/-!
# Values of terms

A term has a value for each of its cells, computed from the values of the operands of the cell.  A
term grows by one cell at a time, so what holds of the empty term and is kept by `Term.push` holds
of all terms (`Term.push_induction`).  In a well-formed term operands are earlier than their users;
the value of a cell is then its head applied to the values of its operands, and neither cells that
come later nor the default value matter.
-/

namespace Resolvent.Term

variable {α : Type} {d : α} {f : Head → List α → α} {t : Term} {c : Cell} {k : Nat}

/-- Each operand comes before its users. -/
def Ordered (t : Term) : Prop := ∀ (k : Nat) (c : Cell), t.cells[k]? = some c → ∀ i ∈ c.operands, i < k

/-- The term has a root, and each operand comes before its users. -/
structure WellFormed (t : Term) : Prop where
  /-- There is a root. -/
  nonempty : 0 < t.cells.size
  /-- Operands come first. -/
  ordered : t.Ordered

theorem ordered_iff :
    t.Ordered ↔ ∀ k : Fin t.cells.size, ∀ i ∈ (t.cells[k]).operands, i < k.val :=
  ⟨fun h k => h k _ (Array.getElem?_eq_getElem k.isLt), fun h k c hc => by
    obtain ⟨hk, rfl⟩ := Array.getElem?_eq_some_iff.1 hc
    exact h ⟨k, hk⟩⟩

instance (t : Term) : Decidable t.Ordered := decidable_of_iff' _ ordered_iff

instance (t : Term) : Decidable t.WellFormed :=
  decidable_of_iff (0 < t.cells.size ∧ t.Ordered) ⟨fun h => ⟨h.1, h.2⟩, fun h => ⟨h.1, h.2⟩⟩

/-- The values of the cells. -/
def values (d : α) (f : Head → List α → α) (t : Term) : Array α :=
  t.cells.foldl (fun (values : Array α) c =>
    values.push (f c.head (c.operands.map fun i => values[i]?.getD d))) #[]

/-- The value of a cell. -/
def value (d : α) (f : Head → List α → α) (t : Term) (k : Nat) : α := (t.values d f)[k]?.getD d

theorem push_induction {P : Term → Prop} (hempty : P {})
    (hpush : ∀ t c, P t → P (t.push c).2) (t : Term) : P t := by
  obtain ⟨⟨cells⟩⟩ := t
  induction cells using List.reverseRecOn with
  | nil => exact hempty
  | append_singleton cells c ih => simpa [push] using hpush _ c ih

/-- All heads of the cells are in a class. -/
def HeadsIn (P : Head → Prop) (t : Term) : Prop := ∀ c ∈ t.cells, P c.head

theorem headsIn_push_iff {P : Head → Prop} : (t.push c).2.HeadsIn P ↔ t.HeadsIn P ∧ P c.head := by
  simp only [HeadsIn, push, Array.mem_push, or_imp, forall_and, forall_eq]

@[simp] theorem size_push : (t.push c).2.cells.size = t.cells.size + 1 := Array.size_push ..

theorem getElem?_push : (t.push c).2.cells[k]? = if k = t.cells.size then some c else t.cells[k]? :=
  Array.getElem?_push

theorem values_push : (t.push c).2.values d f =
    (t.values d f).push (f c.head (c.operands.map (t.value d f))) := by
  rw [values, push, Array.foldl_push]
  rfl

@[simp] theorem size_values : (t.values d f).size = t.cells.size := by
  induction t using push_induction with
  | hempty => rfl
  | hpush t c ih => rw [values_push, Array.size_push, ih, size_push]

theorem value_push : (t.push c).2.value d f k =
    if k = t.cells.size then f c.head (c.operands.map (t.value d f)) else t.value d f k := by
  rw [value, values_push, Array.getElem?_push, size_values]
  split <;> rfl

theorem fold_eq_value : t.fold d f = t.value d f (t.cells.size - 1) := by
  rw [value, ← size_values (d := d) (f := f), ← Array.back?_eq_getElem?]
  rfl

/-! ### Ordered terms -/

theorem Ordered.empty : Ordered {} := fun k c h => by simp at h

theorem ordered_push_iff : (t.push c).2.Ordered ↔ t.Ordered ∧ ∀ i ∈ c.operands, i < t.cells.size := by
  constructor
  · intro h
    refine ⟨fun k c' hc => h k c' ?_, h _ c (by rw [getElem?_push, if_pos rfl])⟩
    have hk := (Array.getElem?_eq_some_iff.1 hc).1
    rw [getElem?_push, if_neg (Nat.ne_of_lt hk), hc]
  · rintro ⟨ht, hc⟩ k c' hk
    rw [getElem?_push] at hk
    split at hk
    · next hk' =>
      cases hk
      exact hk' ▸ hc
    · exact ht k c' hk

/-- The value of a cell is its head applied to the values of its operands. -/
theorem Ordered.value_eq (h : t.Ordered) (hc : t.cells[k]? = some c) :
    t.value d f k = f c.head (c.operands.map (t.value d f)) := by
  induction t using push_induction generalizing k c with
  | hempty => simp at hc
  | hpush t last ih =>
    obtain ⟨ht, hlast⟩ := ordered_push_iff.1 h
    have hold : ∀ {c' : Cell}, (∀ i ∈ c'.operands, i < t.cells.size) →
        c'.operands.map ((t.push last).2.value d f) = c'.operands.map (t.value d f) :=
      fun hc' => List.map_congr_left fun i hi => by rw [value_push, if_neg (Nat.ne_of_lt (hc' i hi))]
    rw [getElem?_push] at hc
    rw [value_push]
    split at hc
    · next hk =>
      cases hc
      rw [if_pos hk, hold hlast]
    · next hk =>
      have hlt := (Array.getElem?_eq_some_iff.1 hc).1
      rw [if_neg hk, ih ht hc, hold fun i hi => Nat.lt_trans (ht k c hc i hi) hlt]

end Resolvent.Term

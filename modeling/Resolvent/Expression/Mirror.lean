import Std.Data.ExtHashMap

/-!
# Indexed arrays

An index mirrors an array if it gives the place of each item of the array and of nothing else; then
no item occurs twice.  It still does when a new item is put behind the others, and when the last
items are cut off and erased from the index.
-/

namespace Resolvent

variable {κ ι : Type} [BEq κ] [Hashable κ] [LawfulBEq κ]

/-- The index gives the place of each item of the array and of nothing else. -/
def Mirrors (place : ι → Nat) (index : Std.ExtHashMap κ ι) (items : Array κ) : Prop :=
  ∀ k i, index[k]? = some i ↔ items[place i]? = some k

/-- Erasing keys from an index leaves the others. -/
theorem getElem?_foldl_erase (ks : List κ) (index : Std.ExtHashMap κ ι) (k : κ) :
    (ks.foldl (fun index k => index.erase k) index)[k]? = if k ∈ ks then none else index[k]? := by
  induction ks generalizing index with
  | nil => simp
  | cons j ks ih =>
    rw [List.foldl_cons, ih, Std.ExtHashMap.getElem?_erase]
    by_cases hj : k ∈ ks
    · simp [hj]
    · by_cases hk : j = k
      · simp [hk]
      · simp [hj, hk, Ne.symm hk]

theorem getElem?_take {α : Type} (xs : Array α) (n i : Nat) :
    (xs.take n)[i]? = if i < n then xs[i]? else none := by
  rw [Array.take_eq_extract, Array.getElem?_extract, Nat.zero_add, Nat.sub_zero]
  by_cases hi : i < xs.size
  · simp only [Nat.lt_min, hi, and_true]
  · rw [if_neg fun hlt => hi (Nat.lt_of_lt_of_le hlt (Nat.min_le_right _ _)),
      Array.getElem?_eq_none (Nat.le_of_not_lt hi), ite_self]

namespace Mirrors

variable {place : ι → Nat} {index : Std.ExtHashMap κ ι} {items : Array κ}

theorem empty (place : ι → Nat) : Mirrors place (∅ : Std.ExtHashMap κ ι) #[] := by
  intro k i
  simp

/-- An array has one index only. -/
theorem eq_of_items {index' : Std.ExtHashMap κ ι} (h : Mirrors place index items)
    (h' : Mirrors place index' items) : index = index' := by
  refine Std.ExtHashMap.ext_getElem? fun k => Option.ext fun i => ?_
  rw [h k i, h' k i]

/-- Different items may be numbered. -/
theorem ofList (mk : Nat → ι) (place : ι → Nat) (hmk : ∀ n, place (mk n) = n)
    (hplace : ∀ i, mk (place i) = i) {items : List κ} (hitems : items.Nodup) :
    Mirrors place (.ofList (items.zipIdx.map fun (k, n) => (k, mk n))) items.toArray := by
  have hindex : ∀ (k : κ) (n : Nat), items[n]? = some k →
      (Std.ExtHashMap.ofList (items.zipIdx.map fun (k, n) => (k, mk n)))[k]? = some (mk n) := by
    intro k n hk
    refine Std.ExtHashMap.getElem?_ofList_of_mem (beq_self_eq_true k) ?_ ?_
    · rw [List.pairwise_map]
      rw [← List.zipIdx_map_fst 0 items, List.Nodup, List.pairwise_map] at hitems
      exact hitems.imp fun hne => beq_false_of_ne hne
    · exact List.mem_map.2 ⟨(k, n), List.mem_zipIdx_iff_getElem?.2 hk, rfl⟩
  intro k i
  rw [List.getElem?_toArray]
  constructor
  · intro hk
    -- what has a place in the index is one of the items
    have hmem := Std.ExtHashMap.mem_iff_isSome_getElem?.2 (Option.isSome_iff_exists.2 ⟨i, hk⟩)
    rw [Std.ExtHashMap.mem_ofList] at hmem
    simp only [List.map_map, Function.comp_def, List.zipIdx_map_fst] at hmem
    obtain ⟨n, hn⟩ := List.mem_iff_getElem?.1 (List.contains_iff_mem.1 hmem)
    rwa [Option.some.inj (hk.symm.trans (hindex k n hn)), hmk]
  · intro hk
    rw [hindex k _ hk, hplace]

/-- A new item gets the place behind the others. -/
theorem push (h : Mirrors place index items) (hplace : Function.Injective place) {k : κ} {i : ι}
    (hnew : index[k]? = none) (hi : place i = items.size) :
    Mirrors place (index.insert k i) (items.push k) := by
  intro k' i'
  rw [Std.ExtHashMap.getElem?_insert, Array.getElem?_push]
  by_cases hk : k = k'
  · -- the new item was at no place before
    subst hk
    have hfresh : items[place i']? ≠ some k := fun hk => by simp [(h k i').2 hk] at hnew
    rw [if_pos (beq_self_eq_true k)]
    by_cases hi' : place i' = items.size
    · obtain rfl := hplace (hi'.trans hi.symm)
      simp [hi]
    · rw [if_neg hi']
      refine iff_of_false (fun heq => hi' ?_) hfresh
      rw [← Option.some.inj heq, hi]
  · -- the new place was free before
    rw [if_neg (fun heq => hk (eq_of_beq heq)), h k' i']
    by_cases hi' : place i' = items.size
    · simp [hi', hk]
    · rw [if_neg hi']

/-- What is cut off is erased from the index. -/
theorem take (h : Mirrors place index items) (hplace : Function.Surjective place) (n : Nat) :
    Mirrors place ((items.toList.drop n).foldl (fun index k => index.erase k) index)
      (items.take n) := by
  intro k i
  rw [getElem?_foldl_erase, getElem?_take]
  by_cases hk : k ∈ items.toList.drop n
  · -- the place of an item that is cut off is not among the first ones
    obtain ⟨m, hm⟩ := List.mem_iff_getElem?.1 hk
    obtain ⟨j, hj⟩ := hplace (n + m)
    rw [List.getElem?_drop, Array.getElem?_toList, ← hj] at hm
    have hindex := (h k j).2 hm
    rw [if_pos hk]
    refine iff_of_false nofun fun htake => ?_
    obtain ⟨hlt, hi⟩ := Option.ite_none_right_eq_some.1 htake
    have hij := Option.some.inj (hindex.symm.trans ((h k i).2 hi))
    subst hij
    omega
  · -- the place of an item that stays is among the first ones
    rw [if_neg hk, h k i, Option.ite_none_right_eq_some]
    refine ⟨fun hi => ⟨?_, hi⟩, And.right⟩
    by_cases hlt : place i < n
    · exact hlt
    · refine absurd (List.mem_iff_getElem?.2 ⟨place i - n, ?_⟩) hk
      rw [List.getElem?_drop, Nat.add_sub_cancel' (Nat.le_of_not_lt hlt), Array.getElem?_toList, hi]

end Mirrors

end Resolvent

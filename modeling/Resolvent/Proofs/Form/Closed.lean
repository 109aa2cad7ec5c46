import Resolvent.Form.Product

/-!
# Closed classes of forms

A class of forms that is closed under addition has the sums of its members, added in any order
(`Form.sumAll_of_closed`), and one that is closed under multiplication has their powers
(`Form.powNatWith_of_closed`).  Inverses may lead to a larger class (`Form.inverseWith_of_closed`).
-/

namespace Resolvent.Form

variable {C : Form → Prop}

section Sums

variable (hzero : C zero) (hadd : ∀ f g, C f → C g → C (add f g))

include hadd in
theorem addPairs_of_closed {fs : List Form} (h : ∀ f ∈ fs, C f) : ∀ f ∈ addPairs fs, C f := by
  fun_induction addPairs fs with
  | case1 f g rest ih =>
    intro x hx
    rcases List.mem_cons.1 hx with rfl | hx
    · exact hadd f g (h f (by simp)) (h g (by simp))
    · exact ih (fun y hy => h y (by simp [hy])) x hx
  | case2 => exact h

include hadd in
theorem foldl_add_of_closed {fs : List Form} (h : ∀ f ∈ fs, C f) {start : Form}
    (hstart : C start) : C (fs.foldl add start) := by
  induction fs generalizing start with
  | nil => exact hstart
  | cons f fs ih =>
    exact ih (fun g hg => h g (List.mem_cons_of_mem _ hg))
      (hadd start f hstart (h f List.mem_cons_self))

include hzero hadd

theorem sumLoop_of_closed {fs : List Form} (h : ∀ f ∈ fs, C f) (fuel : Nat) :
    C (sumLoop fuel fs) := by
  fun_induction sumLoop fuel fs with
  | case1 => exact hzero
  | case2 _ f => exact h f List.mem_cons_self
  | case3 => exact foldl_add_of_closed hadd h hzero
  | case4 fuel fs _ _ ih => exact ih (addPairs_of_closed hadd h)

/-- A class closed under addition has the sums of its members. -/
theorem sumAll_of_closed {fs : List Form} (h : ∀ f ∈ fs, C f) : C (sumAll fs) :=
  sumLoop_of_closed hzero hadd h fs.length

end Sums

section Powers

variable {normalize : Rat → List (Atom × Int) → Form}
  (hmul : ∀ f g, C f → C g → C (mulWith normalize f g))

include hmul

theorem foldl_mulWith_of_closed {fs : List Form} (h : ∀ f ∈ fs, C f) {start : Form}
    (hstart : C start) : C (fs.foldl (mulWith normalize) start) := by
  induction fs generalizing start with
  | nil => exact hstart
  | cons f fs ih =>
    exact ih (fun g hg => h g (List.mem_cons_of_mem _ hg))
      (hmul start f hstart (h f List.mem_cons_self))

theorem powLoop_of_closed {result base : Form} (hresult : C result) (hbase : C base) (n : Nat) :
    C (powLoop (mulWith normalize) result base n) := by
  induction n using Nat.strongRecOn generalizing result base with
  | ind n ih =>
    -- the result, with the base multiplied to it if the bit is set
    have hnext : C (if n % 2 = 1 then mulWith normalize result base else result) := by
      split
      · exact hmul result base hresult hbase
      · exact hresult
    rw [powLoop]
    split
    · exact hresult
    · dsimp only
      split
      · exact hnext
      · exact ih (n / 2) (by omega) hnext (hmul base base hbase hbase)

/-- A class closed under multiplication has the powers of its members. -/
theorem powNatWith_of_closed {f : Form} {n : Nat} (hone : C one) (hf : C f)
    (hsingle : ∀ m q, f.singleTerm? = some (m, q) →
      C (normalize (Rat.pow q n) (m.scaleExponents n))) :
    C (powNatWith normalize f n) := by
  unfold powNatWith
  split
  · exact hone
  · split
    · next m q h => exact hsingle m q h
    · exact powLoop_of_closed hmul hone hf n

end Powers

/-- A class closed under multiplication and conjugation has its inverses in a class that has its
members, the inverses of its single terms and its reciprocals. -/
theorem inverseWith_of_closed {D : Form → Prop} {normalize : Rat → List (Atom × Int) → Form}
    (hmulC : ∀ f g, C f → C g → C (mulWith normalize f g))
    (hmulD : ∀ f g, D f → D g → D (mulWith normalize f g)) (hle : ∀ f, C f → D f)
    (hconj : ∀ f g, C f → f.rationalizingConjugate? = some g → C g)
    (hsingle : ∀ f m q, C f → f.singleTerm? = some (m, q) →
      D (normalize q⁻¹ (m.scaleExponents (-1))))
    (hreciprocal : ∀ f, C f → D (reciprocalOf normalize f)) {f g : Form} (hf : C f) {budget : Nat}
    (hg : inverseWith normalize budget f = some g) : D g := by
  induction budget generalizing f g with
  | zero =>
    rw [inverseWith] at hg
    split at hg
    · cases hg
    · split at hg
      · next hm =>
        cases hg
        exact hsingle f _ _ hf hm
      · cases hg
        exact hreciprocal f hf
  | succ budget ih =>
    rw [inverseWith] at hg
    split at hg
    · cases hg
    · split at hg
      · next hm =>
        cases hg
        exact hsingle f _ _ hf hm
      · split at hg
        · cases hg
          exact hreciprocal f hf
        · next c hc =>
          have hc := hconj f c hf hc
          split at hg
          · next i hi =>
            cases hg
            exact hmulD c i (hle c hc) (ih (hmulC f c hf hc) hi)
          · cases hg
            exact hreciprocal f hf

end Resolvent.Form

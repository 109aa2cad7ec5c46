import Mathlib.Order.Defs.Unbundled

/-!
# Relations along computations

A computation on a state that may fail goes along a relation if every run of it leads from a state
to a related one, whether it succeeds or not.  Sequences of steps that go along a preorder go along
it too.  What is related may be a view of the state only: `Along Eq view m` says that `m` never
changes what `view` shows.
-/

namespace Resolvent

variable {σ τ ε ε' α β : Type}

/-! ### Results -/

theorem Except.map_eq_ok_iff {r : Except ε α} {f : α → β} {b : β} :
    r.map f = .ok b ↔ ∃ a, r = .ok a ∧ f a = b := by
  cases r <;> simp [Except.map]

theorem Except.bind_eq_ok_iff {r : Except ε α} {f : α → Except ε β} {b : β} :
    r >>= f = .ok b ↔ ∃ a, r = .ok a ∧ f a = .ok b := by
  cases r <;> simp [bind, Except.bind]

/-- There is a list of results exactly if each member has one. -/
theorem mapM_eq_some_iff {f : α → Option β} {as : List α} {bs : List β} :
    as.mapM f = some bs ↔ as.map f = bs.map some := by
  induction as generalizing bs with
  | nil => cases bs <;> simp
  | cons a as ih => cases bs <;> simp [List.mapM_cons, Option.bind_eq_some_iff, ih]

theorem exists_of_mem_mapM {f : α → Option β} {as : List α} {bs : List β}
    (h : as.mapM f = some bs) {b : β} (hb : b ∈ bs) : ∃ a ∈ as, f a = some b :=
  List.mem_map.1 (mapM_eq_some_iff.1 h ▸ List.mem_map_of_mem hb)

theorem mapM_mono {f g : α → Option β} {as : List α} {bs : List β}
    (hfg : ∀ a ∈ as, ∀ b, f a = some b → g a = some b) (h : as.mapM f = some bs) :
    as.mapM g = some bs := by
  rw [mapM_eq_some_iff] at h ⊢
  rw [← h]
  refine List.map_congr_left fun a ha => ?_
  obtain ⟨b, -, hb⟩ := List.mem_map.1 (h ▸ List.mem_map_of_mem ha : f a ∈ bs.map some)
  rw [← hb, hfg a ha b hb.symm]

theorem exists_mapM {f : α → Option β} {as : List α}
    (h : ∀ a ∈ as, ∃ b, f a = some b) : ∃ bs, as.mapM f = some bs := by
  induction as with
  | nil => exact ⟨[], rfl⟩
  | cons a as ih =>
    obtain ⟨b, hb⟩ := h a List.mem_cons_self
    obtain ⟨bs, hbs⟩ := ih fun c hc => h c (List.mem_cons_of_mem _ hc)
    exact ⟨b :: bs, by simp [List.mapM_cons, hb, hbs]⟩

/-! ### Runs -/

/-- Every run leads from a state to a related one, as far as the view shows. -/
def Along (R : τ → τ → Prop) (view : σ → τ) (m : ExceptT ε (StateM σ) α) : Prop :=
  ∀ x, R (view x) (view (m x).2)

/-- A sequence of two computations runs the second where the first succeeds. -/
theorem bind_run (m : ExceptT ε (StateM σ) α) (f : α → ExceptT ε (StateM σ) β) (x : σ) :
    (m >>= f) x = match m x with
      | (.ok a, y) => f a y
      | (.error e, y) => (.error e, y) := by
  change ((ExceptT.bindCont f (m x).1) : StateM σ (Except ε β)) (m x).2 = _
  rcases m x with ⟨e | a, y⟩ <;> rfl

theorem pure_run (a : α) (x : σ) : (pure a : ExceptT ε (StateM σ) α) x = (.ok a, x) := rfl

theorem throw_run (e : ε) (x : σ) : (throw e : ExceptT ε (StateM σ) α) x = (.error e, x) := rfl

theorem adapt_run (f : ε → ε') (m : ExceptT ε (StateM σ) α) (x : σ) :
    ExceptT.adapt f m x = ((m x).1.mapError f, (m x).2) := rfl

theorem getThe_run (x : σ) : (getThe σ : ExceptT ε (StateM σ) σ) x = (.ok x, x) := rfl

namespace Along

variable {R : τ → τ → Prop} {view : σ → τ}

theorem adapt {m : ExceptT ε (StateM σ) α} (f : ε → ε') (hm : Along R view m) :
    Along R view (ExceptT.adapt f m) := by
  intro x
  exact hm x

variable [IsPreorder τ R]

theorem pure (a : α) : Along R view (Pure.pure a : ExceptT ε (StateM σ) α) := fun x =>
  refl_of R (view x)

theorem throw (e : ε) : Along R view (MonadExcept.throw e : ExceptT ε (StateM σ) α) := fun x =>
  refl_of R (view x)

theorem bind {m : ExceptT ε (StateM σ) α} {f : α → ExceptT ε (StateM σ) β} (hm : Along R view m)
    (hf : ∀ a, Along R view (f a)) : Along R view (m >>= f) := by
  intro x
  -- the first computation leads to a state that the second goes on from
  have hx := hm x
  rw [bind_run]
  rcases hrun : m x with ⟨e | a, y⟩
  · rw [hrun] at hx
    exact hx
  · rw [hrun] at hx
    exact trans_of R hx (hf a y)

/-- Reading the state changes nothing. -/
theorem get : Along R view (getThe σ : ExceptT ε (StateM σ) σ) := fun x => refl_of R (view x)

/-- A result that depends on no state changes none. -/
theorem ofExcept (r : Except ε α) : Along R view (liftM r : ExceptT ε (StateM σ) α) := fun x =>
  refl_of R (view x)

theorem mapM {f : α → ExceptT ε (StateM σ) β} (hf : ∀ a, Along R view (f a)) (as : List α) :
    Along R view (as.mapM f) := by
  induction as with
  | nil => exact pure _
  | cons a as ih =>
    rw [List.mapM_cons]
    exact (hf a).bind fun b => ih.bind fun bs => pure _

theorem foldlM {f : β → α → ExceptT ε (StateM σ) β} (hf : ∀ b a, Along R view (f b a)) (b : β)
    (as : List α) : Along R view (as.foldlM f b) := by
  induction as generalizing b with
  | nil => exact pure _
  | cons a as ih =>
    rw [List.foldlM_cons]
    exact (hf b a).bind ih

end Along

end Resolvent

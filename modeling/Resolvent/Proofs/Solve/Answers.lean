import Resolvent.Proofs.Form.Value
import Resolvent.Solve.Answer

/-!
# Lists of answers

`Answer.Solve v R` says of a list of answers that its exact members have values which satisfy `R`
and, when there are only such members, that each value which satisfies `R` is among theirs.  Listing
answers in order and without repetitions adds none and, as answers that are known in doubles only
do not mix with others (`Answer.Unmixed`), drops none that is needed (`Answer.Solve.listed`).
-/

namespace Resolvent.Answer

variable {p : Preferences} {answers : List Answer}

theorem mem_of_mem_distinct {answers : List (Complex × Answer)} {x : Complex × Answer}
    (h : x ∈ distinct answers) : x ∈ answers := by
  have hfold : ∀ kept : List (Complex × Answer),
      x ∈ answers.foldl (fun kept x => if kept.any (same x) then kept else kept ++ [x]) kept →
        x ∈ kept ∨ x ∈ answers := by
    clear h
    induction answers with
    | nil => exact fun _ h => .inl h
    | cons y answers ih =>
      intro kept h
      rcases ih _ h with h | h <;> grind
  exact (hfold [] h).resolve_left List.not_mem_nil

/-- Listing answers in order adds none. -/
theorem mem_of_mem_listed {x : Answer} (h : x ∈ listed p answers) : x ∈ answers := by
  obtain ⟨y, hy, rfl⟩ := List.mem_map.1 h
  obtain ⟨a, ha, rfl⟩ := List.mem_map.1 (List.mem_mergeSort.1 (mem_of_mem_distinct hy))
  exact ha

/-- Of answers that are the same, the first is kept. -/
theorem exists_same_of_mem_distinct {answers : List (Complex × Answer)} {x : Complex × Answer}
    (h : x ∈ answers) : ∃ y ∈ distinct answers, y = x ∨ same x y = true := by
  have hkept : ∀ (answers kept : List (Complex × Answer)) (x : Complex × Answer), x ∈ kept →
      x ∈ answers.foldl (fun kept x => if kept.any (same x) then kept else kept ++ [x]) kept := by
    intro answers
    induction answers with
    | nil => exact fun _ _ h => h
    | cons y answers ih =>
      intro kept x hx
      refine ih _ x ?_
      dsimp only
      split
      · exact hx
      · exact List.mem_append_left _ hx
  suffices hfold : ∀ kept : List (Complex × Answer),
      ∃ y ∈ answers.foldl (fun kept x => if kept.any (same x) then kept else kept ++ [x]) kept,
        y = x ∨ same x y = true from hfold []
  induction answers with
  | nil => cases h
  | cons z answers ih =>
    intro kept
    rcases List.mem_cons.1 h with rfl | h
    · rw [List.foldl_cons]
      split
      · next hany =>
        obtain ⟨y, hy, hsame⟩ := List.any_eq_true.1 hany
        exact ⟨y, hkept _ _ y hy, .inr hsame⟩
      · exact ⟨x, hkept _ _ x (List.mem_append_right _ List.mem_cons_self), .inl rfl⟩
    · exact ih h _

/-- The answer is known in doubles only. -/
def IsApproximate (a : Answer) : Prop := ∃ z, a = .approximate z

theorem eq_of_same {x y : Complex × Answer} (hx : ¬ x.2.IsApproximate) (hy : ¬ y.2.IsApproximate)
    (h : same x y = true) : x.2 = y.2 := by
  obtain ⟨z, a⟩ := x
  obtain ⟨w, b⟩ := y
  cases a with
  | exact f =>
    cases b with
    | exact g => rw [of_decide_eq_true (p := f = g) h]
    | unreal => cases h
    | approximate u => exact absurd ⟨u, rfl⟩ hy
  | unreal =>
    cases b with
    | exact g => cases h
    | unreal => rfl
    | approximate u => exact absurd ⟨u, rfl⟩ hy
  | approximate u => exact absurd ⟨u, rfl⟩ hx

/-- Listing answers that are not known in doubles drops repetitions only. -/
theorem mem_listed_iff (h : ∀ a ∈ answers, ¬ a.IsApproximate) {x : Answer} :
    x ∈ listed p answers ↔ x ∈ answers := by
  refine ⟨mem_of_mem_listed, fun hx => ?_⟩
  obtain ⟨y, hy, hsame⟩ := exists_same_of_mem_distinct
    (List.mem_mergeSort.2 (List.mem_map_of_mem (f := fun a => (a.value p, a)) hx))
  refine List.mem_map.2 ⟨y, hy, ?_⟩
  rcases hsame with rfl | hsame
  · rfl
  · refine (eq_of_same (h x hx) ?_ hsame).symm
    exact h _ (mem_of_mem_listed (List.mem_map_of_mem hy))

theorem listed_ne_nil (h : answers ≠ []) : listed p answers ≠ [] := by
  obtain ⟨a, ha⟩ := List.exists_mem_of_ne_nil _ h
  obtain ⟨y, hy, -⟩ := exists_same_of_mem_distinct
    (List.mem_mergeSort.2 (List.mem_map_of_mem (f := fun a => (a.value p, a)) ha))
  exact List.ne_nil_of_mem (List.mem_map_of_mem hy)

/-- No member that is kept is the same as one before it. -/
theorem pairwise_distinct (answers : List (Complex × Answer)) :
    (distinct answers).Pairwise fun y x => same x y = false := by
  have hfold : ∀ kept : List (Complex × Answer), (kept.Pairwise fun y x => same x y = false) →
      (answers.foldl (fun kept x => if kept.any (same x) then kept else kept ++ [x]) kept).Pairwise
        fun y x => same x y = false := by
    induction answers with
    | nil => exact fun _ h => h
    | cons x answers ih =>
      intro kept hkept
      refine ih _ ?_
      dsimp only
      split
      · exact hkept
      · next hnone =>
        refine List.pairwise_append.2 ⟨hkept, List.pairwise_singleton _ _, fun y hy z hz => ?_⟩
        rw [List.mem_singleton.1 hz]
        exact Bool.eq_false_iff.2 fun hsame => hnone (List.any_eq_true.2 ⟨y, hy, hsame⟩)
  exact hfold [] List.Pairwise.nil

theorem same_self {x : Complex × Answer} (h : ¬ x.2.IsApproximate) : same x x = true := by
  obtain ⟨z, a⟩ := x
  cases a with
  | exact f => exact decide_eq_true rfl
  | unreal => rfl
  | approximate w => exact absurd ⟨w, rfl⟩ h

/-- Answers that are not known in doubles are listed once. -/
theorem nodup_listed (h : ∀ a ∈ answers, ¬ a.IsApproximate) : (listed p answers).Nodup := by
  refine List.pairwise_map.2 ((pairwise_distinct _).imp_of_mem fun {x y} hx hy hne heq => ?_)
  obtain ⟨a, ha, rfl⟩ := List.mem_map.1 (List.mem_mergeSort.1 (mem_of_mem_distinct hx))
  obtain ⟨b, hb, rfl⟩ := List.mem_map.1 (List.mem_mergeSort.1 (mem_of_mem_distinct hy))
  dsimp only at heq
  rw [heq, same_self (h b hb)] at hne
  cases hne

/-! ### Solutions -/

/-- Either no answer is known in doubles only, or they all are. -/
def Unmixed (answers : List Answer) : Prop :=
  (∀ a ∈ answers, ¬ a.IsApproximate) ∨ answers ≠ [] ∧ ∀ a ∈ answers, a.IsApproximate

variable {K : Type*} [Field K] {v : Atom → K} {R : K → Prop}

/-- The exact answers are solutions and, where all answers are exact, the only ones. -/
structure Solve (v : Atom → K) (R : K → Prop) (answers : List Answer) : Prop where
  /-- Exact answers are solutions. -/
  sound : ∀ {f : Form}, .exact f ∈ answers → R (f.value v)
  /-- If all answers are exact, there are no other solutions. -/
  complete : (∀ a ∈ answers, ∃ f, a = .exact f) → ∀ x, R x → ∃ f, .exact f ∈ answers ∧ f.value v = x

theorem solve_of_iff (h : ∀ x, R x ↔ ∃ f, .exact f ∈ answers ∧ f.value v = x) :
    Solve v R answers :=
  ⟨fun {f} hf => (h _).2 ⟨f, hf, rfl⟩, fun _ x hx => (h x).1 hx⟩

/-- Without exact answers nothing is claimed. -/
theorem solve_of_forall_ne (hne : answers ≠ []) (h : ∀ f, .exact f ∉ answers) :
    Solve v R answers := by
  refine ⟨fun hf => absurd hf (h _), fun hexact => ?_⟩
  obtain ⟨a, ha⟩ := List.exists_mem_of_ne_nil _ hne
  obtain ⟨f, rfl⟩ := hexact a ha
  exact absurd ha (h f)

theorem Solve.cons {R' : K → Prop} {f : Form} (h : Solve v R' answers)
    (hR : ∀ x, R x ↔ x = f.value v ∨ R' x) : Solve v R (.exact f :: answers) := by
  refine ⟨fun hg => ?_, fun hexact x hx => ?_⟩
  · rcases List.mem_cons.1 hg with heq | hg
    · cases heq
      exact (hR _).2 (.inl rfl)
    · exact (hR _).2 (.inr (h.sound hg))
  · rcases (hR x).1 hx with rfl | hx
    · exact ⟨f, List.mem_cons_self, rfl⟩
    · obtain ⟨g, hg, hvalue⟩ := h.complete (fun a ha => hexact a (List.mem_cons_of_mem _ ha)) x hx
      exact ⟨g, List.mem_cons_of_mem _ hg, hvalue⟩

/-- Listing answers keeps what they solve. -/
theorem Solve.listed (h : Solve v R answers) (hunmixed : Unmixed answers) (p : Preferences) :
    Solve v R (listed p answers) := by
  refine ⟨fun hf => h.sound (mem_of_mem_listed hf), fun hexact x hx => ?_⟩
  rcases hunmixed with hnone | ⟨hne, hall⟩
  · obtain ⟨f, hf, hvalue⟩ := h.complete (fun a ha => hexact a ((mem_listed_iff hnone).2 ha)) x hx
    exact ⟨f, (mem_listed_iff hnone).2 hf, hvalue⟩
  · -- the first of the answers would be exact and known in doubles only
    obtain ⟨a, ha⟩ := List.exists_mem_of_ne_nil _ (listed_ne_nil (p := p) hne)
    obtain ⟨f, rfl⟩ := hexact a ha
    obtain ⟨z, hz⟩ := hall _ (mem_of_mem_listed ha)
    cases hz

end Resolvent.Answer

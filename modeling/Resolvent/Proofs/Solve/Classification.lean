import Resolvent.Proofs.Solve.Answers
import Resolvent.Proofs.Solve.Resolution

/-!
# What a pass finds

A pass ends with a status, a classification of the system, its degree, a number of solutions and the
solutions that are listed.  `Results.Agree` says how these fit each other and the catalog, and
`EquationStore.solvePass_finds` that they do behind every pass that starts without results and has
room for its nodes.  It also says what becomes of the interval: a pass that leaves the roots to a
search puts the standard one in its place, and no other pass touches it, not even one that runs out
of nodes.

There are never more answers than solutions that can be kept, so cutting the list off at that number
drops none: the listed solutions are all that presenting the answers of the system gives.
-/

namespace Resolvent

/-! ### How many answers there are -/

namespace Answer

theorem length_distinct_le (answers : List (Complex × Answer)) :
    (distinct answers).length ≤ answers.length := by
  have hfold : ∀ kept : List (Complex × Answer),
      (answers.foldl (fun kept x => if kept.any (same x) then kept else kept ++ [x]) kept).length ≤
        kept.length + answers.length := by
    induction answers with
    | nil => exact fun _ => Nat.le_refl _
    | cons x answers ih =>
      intro kept
      rw [List.foldl_cons, List.length_cons]
      refine (ih _).trans ?_
      split
      · omega
      · rw [List.length_append, List.length_singleton]
        omega
  exact (hfold []).trans (Nat.zero_add _).le

/-- Listing answers in order adds none. -/
theorem length_listed_le (p : Preferences) (answers : List Answer) :
    (listed p answers).length ≤ answers.length := by
  unfold listed
  rw [List.length_map]
  refine (length_distinct_le _).trans ?_
  rw [List.length_mergeSort, List.length_map]

end Answer

namespace Quadratic

theorem length_roots_le (p : Preferences) (q : Quadratic) : (q.roots p).length ≤ 2 := by
  unfold roots
  split
  · unfold rootsWith
    dsimp only
    split
    · exact Nat.le_succ 1
    · split <;> exact Nat.le_refl 2
  · exact Nat.le_succ 1

end Quadratic

namespace Cubic

theorem length_numericRoots (p : Preferences) (q : Cubic) : (q.numericRoots p).length = 3 := by
  unfold numericRoots
  rw [List.length_map]
  split
  · split
    · rfl
    · rw [List.length_modify]
      rfl
  · rfl

theorem length_rootsBeside_le (p : Preferences) (q : Cubic) (r : Form) :
    (q.rootsBeside p r).length ≤ 3 := by
  refine Nat.succ_le_succ ?_
  split
  · exact Quadratic.length_roots_le _ _
  · exact Nat.le_succ 1

theorem length_pureRoots_le (p : Preferences) (q : Cubic) : (q.pureRoots p).length ≤ 3 := by
  unfold pureRoots
  split
  · exact Nat.le_add_left 1 2
  · split <;> exact Nat.le_refl 3

theorem length_multipleRoots_le (q : Cubic) : q.multipleRoots.length ≤ 3 := by
  unfold multipleRoots
  dsimp only
  split
  · exact Nat.le_add_left 1 2
  · exact Nat.le_succ 2

theorem length_roots_le (p : Preferences) (q : Cubic) : (q.roots p).length ≤ 3 := by
  unfold roots
  split
  · exact q.length_pureRoots_le p
  · split
    · exact q.length_rootsBeside_le p _
    · split
      · exact q.length_multipleRoots_le
      · exact (q.length_numericRoots p).le

end Cubic

/-- A polynomial that is solved exactly is quadratic or cubic, and its answers find room. -/
theorem Form.polynomialRoots?_bounds {p : Preferences} {f : Form} {unknown : Nat}
    {r : PolynomialRoots} (h : f.polynomialRoots? p unknown = some r) :
    (r.degree = 2 ∨ r.degree = 3) ∧ r.answers.length ≤ maxExactSolutions := by
  have hroom (answers : List Answer) (g : Form) (hle : answers.length ≤ 3) :
      (Answer.listed p answers ++ [Answer.exact g]).length ≤ maxExactSolutions := by
    rw [List.length_append]
    have hlisted := (Answer.length_listed_le p answers).trans hle
    exact Nat.le_trans (Nat.add_le_add_right hlisted 1) (by decide)
  unfold polynomialRoots? at h
  split at h
  · cases h
    exact ⟨.inl rfl, hroom _ _ ((Quadratic.length_roots_le _ _).trans (by decide))⟩
  · cases h
    exact ⟨.inr rfl, hroom _ _ (Cubic.length_roots_le _ _)⟩
  · cases h

/-- A linear system has at most one value for each unknown. -/
theorem LinearSystem.length_le_of_unique {forms : List Form} {unknowns : List Nat}
    {values : List Form} (h : solve forms unknowns = .unique values) :
    values.length ≤ unknowns.length := by
  unfold solve solveWith at h
  split at h
  · cases h
  · dsimp only at h
    unfold outcome at h
    split at h
    · cases h
    · split at h
      · cases h
        rw [List.length_map, List.length_take]
        exact Nat.min_le_left _ _
      · cases h

/-! ### Stages -/

namespace Stage

variable {σ α β : Type}

/-- Run from a state, the stage ends with a result and a state that are as required. -/
def Ends (m : Stage σ α) (x : σ × Arena) (Q : Except Halt α → σ × Arena → Prop) : Prop :=
  Q (m x).1 (m x).2

theorem Ends.bind {m : Stage σ α} {f : α → Stage σ β} {x : σ × Arena}
    {R : Except Halt α → σ × Arena → Prop} {Q : Except Halt β → σ × Arena → Prop}
    (hm : Ends m x R) (hok : ∀ a y, R (.ok a) y → Ends (f a) y Q)
    (herror : ∀ e y, R (.error e) y → Q (.error e) y) : Ends (m >>= f) x Q := by
  unfold Ends at hm ⊢
  rw [bind_run]
  rcases hrun : m x with ⟨e | a, y⟩
  · rw [hrun] at hm
    exact herror e y hm
  · rw [hrun] at hm
    exact hok a y hm

theorem Ends.look_bind {τ : Type} {f : σ → τ} {g : τ → Stage σ α} {x : σ × Arena}
    {Q : Except Halt α → σ × Arena → Prop} (h : Ends (g (f x.1)) x Q) : Ends (look f >>= g) x Q := h

theorem Ends.arena_bind {g : Arena → Stage σ α} {x : σ × Arena}
    {Q : Except Halt α → σ × Arena → Prop} (h : Ends (g x.2) x Q) : Ends (arena >>= g) x Q := h

theorem Ends.update_bind {f : σ → σ} {g : Unit → Stage σ α} {x : σ × Arena}
    {Q : Except Halt α → σ × Arena → Prop} (h : Ends (g ()) (f x.1, x.2) Q) :
    Ends (update f >>= g) x Q := h

theorem Ends.settle_bind {ε : Type} {m : BuildT ε α} {g : Except ε α → Stage σ β} {x : σ × Arena}
    {Q : Except Halt β → σ × Arena → Prop} (h : Ends (g (m x.2).1) (x.1, (m x.2).2) Q) :
    Ends (settle m >>= g) x Q := h

/-- Storing nodes leaves the state as it is and fails for want of room only. -/
theorem build_ends (m : Build α) (s : σ) (A : Arena) :
    Ends (Stage.build m) (s, A) fun r y =>
      y.1 = s ∧ ∀ e, r = .error e → e = .error .outOfMemory := by
  unfold Ends Stage.build
  dsimp only
  rcases m A with ⟨e | a, B⟩
  · exact ⟨rfl, fun _ h => (Except.error.inj h).symm⟩
  · exact ⟨rfl, nofun⟩

end Stage

open Stage

/-! ### The catalog -/

theorem length_collectUnknowns_le (keep : Nat → Bool) {most : Nat} (symbols : List Nat)
    {known : List Nat} (h : known.length ≤ most) :
    (collectUnknowns keep most symbols known).1.length ≤ most := by
  induction symbols generalizing known with
  | nil => exact h
  | cons s symbols ih =>
    unfold collectUnknowns
    split
    · exact ih h
    · split
      · exact h
      · next hroom =>
        refine ih ?_
        rw [List.length_append, List.length_singleton]
        omega

namespace Catalog

/-- There are no more unknowns than a solve takes. -/
def Bounded (k : Catalog) : Prop := k.unknowns.length ≤ maxVariables

/-- The catalog is bounded, and no search has been asked for. -/
def Admissible {α : Type} (r : Except Halt α) (x : Catalog × Arena) : Prop :=
  x.1.Bounded ∧ r ≠ .error (.status .requireApproximateSolution)

theorem ends_bind {α β : Type} {m : Stage Catalog α} {f : α → Stage Catalog β}
    {x : Catalog × Arena} (hm : Ends m x Admissible)
    (hf : ∀ a y, y.1.Bounded → Ends (f a) y Admissible) : Ends (m >>= f) x Admissible :=
  hm.bind (fun a y hy => hf a y hy.1) fun _ _ hy =>
    ⟨hy.1, fun h => hy.2 (congrArg Except.error (Except.error.inj h))⟩

theorem noteForm_ends (c : Canonical) {x : Catalog × Arena} (hx : x.1.Bounded) :
    Ends (noteForm c) x Admissible := by
  have hfound := length_collectUnknowns_le (fun _ => true) c.symbols hx
  refine Ends.bind (R := fun r y => r = .ok x.1.unknowns ∧ y = x) ⟨rfl, rfl⟩ ?_ nofun
  rintro _ _ ⟨hknown, rfl⟩
  obtain rfl := Except.ok.inj hknown
  refine ends_bind ⟨hfound, nofun⟩ fun _ y hy => ?_
  split
  · exact ⟨hy, nofun⟩
  · exact ⟨hy, nofun⟩

theorem noteResult_ends (r : Except CanonicalError Canonical) {x : Catalog × Arena}
    (hx : x.1.Bounded) : Ends (noteResult r) x Admissible := by
  unfold noteResult
  split
  · exact noteForm_ends _ hx
  all_goals exact ⟨hx, nofun⟩

theorem noteEquation_ends (c : Canonizer) (h : Handle) {x : Catalog × Arena} (hx : x.1.Bounded) :
    Ends (noteEquation c h) x Admissible := by
  have hplain : ∀ (c : Canonizer) (y : Catalog × Arena), y.1.Bounded →
      Ends (settle (Build.canonical c h) >>= noteResult) y Admissible := fun c y hy =>
    ends_bind ⟨hy, nofun⟩ fun r z hz => noteResult_ends r hz
  refine ends_bind ⟨hx, nofun⟩ fun known y hy => ?_
  split
  · refine ends_bind ⟨hy, nofun⟩ fun symbolic z hz => ends_bind ⟨hz, nofun⟩ fun A u hu => ?_
    refine ends_bind (x := u) ⟨?_, nofun⟩ fun _ v hv => ?_
    · change (u.1.notePredefined _ _ _).unknowns.length ≤ maxVariables
      rwa [notePredefined_unknowns]
    · split
      · exact noteResult_ends _ hv
      · exact hplain c.later v hv
  · exact hplain c y hy

/-- Classified systems have no more unknowns than a solve takes, and classification asks for no
search. -/
theorem classify_ends (c : Canonizer) (hs : List Handle) (x : Catalog × Arena) :
    Ends (classify c hs) x Admissible := by
  have hall : ∀ y : Catalog × Arena, y.1.Bounded → Ends (noteAll c hs) y Admissible := by
    induction hs generalizing c with
    | nil => exact fun y hy => ⟨hy, nofun⟩
    | cons h hs ih => exact fun y hy => ends_bind (noteEquation_ends c h hy) fun _ => ih _
  exact ends_bind ⟨Nat.zero_le _, nofun⟩ fun _ => hall

/-- The answers of a classified system, unless it has none or infinitely many or is left to a
search. -/
def answers? (k : Catalog) (p : Preferences) : Option (List Answer) :=
  match LinearSystem.solve k.forms k.unknowns with
  | .unique values => some (values.map .exact)
  | .notLinear =>
    match k.unknowns, k.forms with
    | [unknown], [f] => (f.polynomialRoots? p unknown).map PolynomialRoots.answers
    | _, _ => none
  | _ => none

end Catalog

/-! ### Solutions -/

namespace Solution

/-- At most a number of solutions are listed and no search is asked for, or there is no room for
the nodes. -/
def Listed (n : Nat) (r : Except Halt Status) (x : List Solution × Arena) : Prop :=
  (∀ status, r = .ok status → x.1.length ≤ n ∧ status ≠ .requireApproximateSolution) ∧
    ∀ e, r = .error e → e = .error .outOfMemory

variable {α : Type} {status : Status} {n : Nat}

theorem ends_bind {m : Stage (List Solution) α} {f : α → Stage (List Solution) Status}
    {x : List Solution × Arena}
    (hm : Ends m x fun r y => y.1 = x.1 ∧ ∀ e, r = .error e → e = .error .outOfMemory)
    (hf : ∀ a A, Ends (f a) (x.1, A) (Listed n)) : Ends (m >>= f) x (Listed n) := by
  refine hm.bind ?_ fun e y hy => ⟨nofun, fun e' h => ?_⟩
  · rintro a ⟨l, A⟩ ⟨rfl, -⟩
    exact hf a A
  · exact Except.error.inj h ▸ hy.2 e rfl

theorem present_ends (p : Preferences) (exam : ExamMode)
    (hstatus : status ≠ .requireApproximateSolution) (answer : Answer)
    (l : List Solution) (A : Arena) :
    Ends (present p exam status answer) (l, A) (Listed (l.length + 1)) := by
  have hkept : ∀ (s : Status) (y : List Solution × Arena), s ≠ .requireApproximateSolution →
      y.1.length ≤ l.length + 1 → Listed (l.length + 1) (.ok s) y := fun s y hs hy =>
    ⟨fun _ h => Except.ok.inj h ▸ ⟨hy, hs⟩, nofun⟩
  refine ends_bind (build_ends _ l A) fun exact B => ?_
  refine ends_bind (build_ends _ l B) fun approximate C => ends_bind ⟨rfl, nofun⟩ fun D E => ?_
  split
  · exact hkept _ _ hstatus (Nat.le_succ _)
  · exact hkept _ _ nofun (Nat.le_succ _)
  · exact hkept _ _ hstatus List.length_append.le

/-- Of each answer at most one solution is listed. -/
theorem presentAll_ends (p : Preferences) (exam : ExamMode)
    (hstatus : status ≠ .requireApproximateSolution) (answers : List Answer)
    (l : List Solution) (A : Arena) :
    Ends (presentAll p exam status answers) (l, A) (Listed (l.length + answers.length)) := by
  induction answers generalizing status l A with
  | nil => exact ⟨fun _ h => Except.ok.inj h ▸ ⟨Nat.le_refl _, hstatus⟩, nofun⟩
  | cons answer answers ih =>
    refine (present_ends p exam hstatus answer l A).bind ?_ fun e y hy => ⟨nofun, fun e' h => ?_⟩
    · rintro status' ⟨k, B⟩ hlisted
      obtain ⟨hlength, hstatus'⟩ := hlisted.1 status' rfl
      obtain ⟨hok, herror⟩ := ih hstatus' k B
      refine ⟨fun s hs => ⟨(hok s hs).1.trans ?_, (hok s hs).2⟩, herror⟩
      dsimp only at hlength
      rw [List.length_cons]
      omega
    · exact Except.error.inj h ▸ hy.2 e rfl

end Solution

/-! ### Results -/

/-- The results of a solve fit each other and its catalog. -/
structure Results.Agree (r : Results) (k : Catalog) : Prop where
  degree_linear : r.degree = 1 ↔ r.kind = .linear
  degree_polynomial : r.degree = 2 ∨ r.degree = 3 ↔ r.kind = .polynomial
  degree_search : r.degree = -1 ↔ r.kind = .search
  status : r.status = .requireApproximateSolution ↔ r.kind = .search
  search : r.search.isSome ↔ r.kind = .search
  roots : r.kind ≠ .search → r.roots = {}
  finite : ∀ n, r.kind ≠ .search → r.count = .finite n → r.solutions.length = n
  infinite : r.count = .infinite → r.kind = .linear ∧ r.solutions = []
  catalog : r.kind ≠ .linear → ∃ x f, k.unknowns = [x] ∧ k.forms = [f]
  room : r.solutions.length ≤ maxExactSolutions
  /-- The solutions are all that presenting the answers of the system gives. -/
  listed : r.kind = .polynomial ∨ r.solutions ≠ [] → ∃ p exam answers A B,
    k.answers? p = some answers ∧
      Solution.presentAll p exam .noError answers ([], A) = (.ok r.status, (r.solutions, B))

/-- Without results there is nothing that could disagree. -/
theorem Results.agree_none (k : Catalog) (replaced : Bool) {status : Status}
    (hstatus : status ≠ .requireApproximateSolution) : Agree { status, replaced } k where
  degree_linear := by simp
  degree_polynomial := by simp
  degree_search := by simp
  status := by simpa using hstatus
  search := by simp
  roots _ := rfl
  finite n _ h := by cases h; rfl
  infinite h := by cases h
  catalog h := absurd rfl h
  room := Nat.zero_le _
  listed h := by simp at h

namespace EquationStore

variable {options : SolveOptions} {p : Preferences} {mode : Mode}

/-- What a pass leaves behind fits together, and the interval is the standard one if there is a
search to begin; without a status the pass leaves the interval as it is. -/
def Finds (i : Interval) (r : Except Halt Status) (x : EquationStore × Arena) : Prop :=
  ((∃ e, r = .error (.error e)) ∧ x.1.interval = i) ∨
    ∃ status, (r = .ok status ∨ r = .error (.status status)) ∧
      Results.Agree { x.1.results with status } x.1.catalog ∧
      x.1.interval = if x.1.results.kind = .search then {} else i

/-- Where the answers find room, all solutions that presenting them gives are listed. -/
theorem listAnswers_run {answers : List Answer} (hroom : answers.length ≤ maxExactSolutions)
    {s : EquationStore} (hnone : s.results.solutions = []) (A : Arena) :
    listAnswers options p answers (s, A) =
      match Solution.presentAll p options.exam .noError answers ([], A) with
      | (.ok status, (l, B)) =>
        (.ok status, ({ s with results :=
          { s.results with solutions := l, count := .finite l.length } }, B))
      | (.error e, (l, B)) =>
        (.error e, ({ s with results := { s.results with solutions := l } }, B)) := by
  have hno : Status.noError ≠ .requireApproximateSolution := nofun
  have hlisted := Solution.presentAll_ends p options.exam hno answers [] A
  unfold listAnswers
  rw [bind_run]
  dsimp only [onSolutions, onPart]
  rw [hnone]
  unfold Ends at hlisted
  rcases hrun : Solution.presentAll p options.exam .noError answers ([], A) with ⟨e | status, l, B⟩
  · rfl
  · rw [hrun] at hlisted
    obtain ⟨hlength, -⟩ := hlisted.1 status rfl
    rw [List.length_nil, Nat.zero_add] at hlength
    dsimp only
    rw [bind_run]
    dsimp only [record, update]
    rw [List.take_of_length_le (hlength.trans hroom)]
    rfl

/-- A pass that lists the answers of its system, as it has classified it. -/
theorem listAnswers_finds {answers : List Answer} (hroom : answers.length ≤ maxExactSolutions)
    {s : EquationStore} {replaced : Bool} {kind : SystemKind} {degree : Int}
    (hresults : s.results = { kind, degree, replaced })
    (hkind : kind = .linear ∧ degree = 1 ∨ kind = .polynomial ∧ (degree = 2 ∨ degree = 3) ∧
      ∃ x f, s.catalog.unknowns = [x] ∧ s.catalog.forms = [f])
    (hanswers : s.catalog.answers? p = some answers) (A : Arena) :
    Ends (listAnswers options p answers) (s, A) (Finds s.interval) := by
  have hno : Status.noError ≠ .requireApproximateSolution := nofun
  have hlisted := Solution.presentAll_ends p options.exam hno answers [] A
  unfold Ends at hlisted ⊢
  rw [listAnswers_run hroom (by rw [hresults]) A]
  rcases hrun : Solution.presentAll p options.exam .noError answers ([], A) with ⟨e | status, l, B⟩
  · rw [hrun] at hlisted
    exact .inl ⟨⟨_, congrArg Except.error (hlisted.2 e rfl)⟩, rfl⟩
  · rw [hrun] at hlisted
    obtain ⟨hlength, hstatus⟩ := hlisted.1 status rfl
    rw [List.length_nil, Nat.zero_add] at hlength
    have hsearch : kind ≠ .search := by
      rcases hkind with ⟨rfl, -⟩ | ⟨rfl, -⟩ <;> nofun
    refine .inr ⟨status, .inl rfl, ?_, ?_⟩
    · rw [hresults]
      constructor
      · rcases hkind with ⟨rfl, rfl⟩ | ⟨rfl, rfl | rfl, -⟩ <;> simp
      · rcases hkind with ⟨rfl, rfl⟩ | ⟨rfl, rfl | rfl, -⟩ <;> simp
      · rcases hkind with ⟨rfl, rfl⟩ | ⟨rfl, rfl | rfl, -⟩ <;> simp
      · exact iff_of_false hstatus hsearch
      · simpa using hsearch
      · exact fun _ => rfl
      · exact fun n _ h => SolutionCount.finite.inj h
      · exact nofun
      · intro hlinear
        rcases hkind with ⟨rfl, -⟩ | ⟨-, -, hcatalog⟩
        · exact absurd rfl hlinear
        · exact hcatalog
      · exact hlength.trans hroom
      · exact fun _ => ⟨p, options.exam, answers, A, B, hanswers, hrun⟩
    · rw [hresults, if_neg hsearch]

/-- A system that is left to a search. -/
theorem prepareSearch_finds (e : SearchEquation) {s : EquationStore} {replaced : Bool}
    (hresults : s.results = { replaced })
    (hcatalog : ∃ x f, s.catalog.unknowns = [x] ∧ s.catalog.forms = [f]) (A : Arena) :
    Ends (prepareSearch e) (s, A) (Finds s.interval) := by
  have hrun : prepareSearch e (s, A) = (.ok .requireApproximateSolution,
      ({ s with
        results := { kind := .search, degree := -1, search := some e, replaced }
        interval := {} }, A)) := by
    change (_, ({ s with
      results := { s.results with kind := .search, degree := -1, search := some e }
      interval := {} }, A)) = _
    rw [hresults]
  unfold Ends
  rw [hrun]
  refine .inr ⟨_, .inl rfl, ?_, rfl⟩
  constructor
  case catalog => exact fun _ => hcatalog
  all_goals simp

/-- A pass that ends without results. -/
theorem finds_none {r : Except Halt Status} {x : EquationStore × Arena} {replaced : Bool}
    (hresults : x.1.results = { replaced }) {status : Status}
    (hr : r = .ok status ∨ r = .error (.status status))
    (hstatus : status ≠ .requireApproximateSolution) : Finds x.1.interval r x :=
  .inr ⟨status, hr, by rw [hresults]; exact Results.agree_none _ _ hstatus, by rw [hresults]; rfl⟩

theorem solveEquation_finds {s : EquationStore} {replaced : Bool}
    (hresults : s.results = { replaced })
    (hnonlinear : LinearSystem.solve s.catalog.forms s.catalog.unknowns = .notLinear)
    (hs : List Handle) (A : Arena) :
    Ends (solveEquation options p mode hs) (s, A) (Finds s.interval) := by
  unfold solveEquation
  refine Ends.look_bind ?_
  split
  · next unknown f h hunknowns hforms =>
    have hcatalog : ∃ x g, s.catalog.unknowns = [x] ∧ s.catalog.forms = [g] :=
      ⟨unknown, f, hunknowns, hforms⟩
    split
    · next roots hroots =>
      obtain ⟨hdegree, hroom⟩ := Form.polynomialRoots?_bounds hroots
      refine Ends.update_bind ?_
      refine listAnswers_finds
        (s := { s with results := { s.results with kind := .polynomial, degree := roots.degree } })
        hroom (by rw [hresults]) (.inr ⟨rfl, hdegree, hcatalog⟩) ?_ A
      dsimp only
      rw [Catalog.answers?, hnonlinear, hunknowns, hforms]
      dsimp only
      rw [hroots]
      rfl
    · exact prepareSearch_finds _ hresults hcatalog A
  · exact finds_none hresults (.inr rfl) nofun

theorem solveCatalog_finds {s : EquationStore} {replaced : Bool}
    (hresults : s.results = { replaced }) (hbounded : s.catalog.Bounded) (hs : List Handle)
    (A : Arena) : Ends (solveCatalog options p mode hs) (s, A) (Finds s.interval) := by
  unfold solveCatalog
  refine Ends.look_bind ?_
  split
  · next values hvalues =>
    refine listAnswers_finds ?_ (by rw [hresults]) (.inl ⟨rfl, rfl⟩) ?_ A
    · rw [List.length_map]
      exact (LinearSystem.length_le_of_unique hvalues).trans (hbounded.trans (Nat.le_succ _))
    · rw [Catalog.answers?, hvalues]
  · exact finds_none hresults (.inl rfl) nofun
  · refine .inr ⟨.noError, .inl rfl, ?_, ?_⟩
    · change Results.Agree { s.results with count := .infinite, status := .noError } s.catalog
      rw [hresults]
      constructor
      all_goals simp
    · change s.interval = if s.results.kind = .search then {} else s.interval
      rw [hresults]
      rfl
  · next hnonlinear => exact solveEquation_finds hresults hnonlinear hs A

theorem solveForms_finds (Γ : Context Handle) (options : SolveOptions) (mode : Mode)
    (hs : List Handle) {s : EquationStore} {replaced : Bool} (hresults : s.results = { replaced })
    (A : Arena) : Ends (solveForms Γ options mode hs) (s, A) (Finds s.interval) := by
  unfold solveForms
  refine Ends.arena_bind ?_
  have hclassify := Catalog.classify_ends (options.canonizer Γ mode
    (options.preferences.forEquations (Γ.definitions A) mode (hs.map A.expression))) hs
    (s.catalog, A)
  refine Ends.bind (R := fun r y => y.1 = { s with catalog := y.1.catalog } ∧
    y.1.catalog.Bounded ∧ r ≠ .error (.status .requireApproximateSolution))
    ⟨rfl, hclassify.1, hclassify.2⟩ ?_ ?_
  · rintro _ ⟨t, B⟩ ⟨ht : t = _, hbounded, -⟩
    have hinterval : t.interval = s.interval := by rw [ht]
    rw [← hinterval]
    exact solveCatalog_finds (by rw [ht]; exact hresults) hbounded hs B
  · rintro e ⟨t, B⟩ ⟨ht : t = _, -, hsearch⟩
    have hinterval : t.interval = s.interval := by rw [ht]
    rw [← hinterval]
    cases e with
    | error e => exact .inl ⟨⟨e, rfl⟩, rfl⟩
    | status status =>
      refine finds_none (by rw [ht]; exact hresults) (.inr rfl) fun h => hsearch ?_
      rw [h]

/-- A pass that starts without results finds results that fit together, unless it has no room. -/
theorem solvePass_finds (Γ : Context Handle) (options : SolveOptions) (mode : Mode)
    {s : EquationStore} (hresults : s.results = {}) (A : Arena) :
    Ends (solvePass Γ options mode) (s, A) (Finds s.interval) := by
  unfold Ends
  rcases hforms : s.equations.mapM Equation.standardForm A with ⟨e | hs, B⟩
  · rw [solvePass_of_error Γ options mode hforms]
    exact .inl ⟨⟨_, rfl⟩, rfl⟩
  · rw [solvePass_of_ok Γ options mode hforms]
    exact solveForms_finds Γ options mode hs (by rw [hresults]) B

end EquationStore

end Resolvent

import Resolvent.Proofs.Form.Coefficients
import Resolvent.Proofs.Solve.Polynomial
import Resolvent.Proofs.Solve.RationalEquation

/-!
# Multiples of an equation

An equation and its multiple by a constant have the same roots, and `Form.polynomialRoots?_scale`
says how far the answers show it.  The routes are chosen by tests that a factor does not change, but
for one: whether rational roots are searched depends on the size of the coefficients.  Where only
the search finds a root (`Cubic.NeedsSearch`), a factor can make exact answers approximate
(`Form.exists_polynomialRoots?_scale_ne`).

Exact answers are compared by their values, as a root of a large discriminant may have two forms,
and in no order, as answers are ordered by their values in doubles.
-/

namespace Resolvent

variable {K : Type*} [Field K] {v : Valuation K} {p : Preferences}

open Form

/-! ### Answers that agree -/

namespace Answer

variable {xs ys : List Answer}

/-- The values of the exact answers. -/
def values (v : Atom → K) (answers : List Answer) : Set K :=
  {z | ∃ f, .exact f ∈ answers ∧ f.value v = z}

/-- The lists have approximate, real and exact answers alike, and the exact ones have the same
values. -/
structure Agree (v : Atom → K) (xs ys : List Answer) : Prop where
  /-- Either all answers of both lists are known in doubles only, or none is. -/
  approximate : (∀ a ∈ xs ++ ys, a.IsApproximate) ∨ ∀ a ∈ xs ++ ys, ¬ a.IsApproximate
  /-- A root that is not real is listed in both or in none. -/
  unreal : .unreal ∈ xs ↔ .unreal ∈ ys
  /-- The exact answers have the same values. -/
  values : values v xs = values v ys

theorem AllExact.not_isApproximate (h : AllExact xs) {a : Answer} (ha : a ∈ xs) :
    ¬ a.IsApproximate := by
  obtain ⟨f, rfl⟩ := h a ha
  rintro ⟨z, hz⟩
  cases hz

theorem AllExact.unreal_notMem (h : AllExact xs) : .unreal ∉ xs := by
  intro hmem
  obtain ⟨f, hf⟩ := h _ hmem
  cases hf

/-- Exact answers that are the solutions of one problem agree. -/
theorem agree_of_solve {v : Atom → K} {R : K → Prop} (hx : AllExact xs) (hy : AllExact ys)
    (hxs : Solve v R xs) (hys : Solve v R ys) : Agree v xs ys where
  approximate := .inr fun _ ha =>
    (List.mem_append.1 ha).elim hx.not_isApproximate hy.not_isApproximate
  unreal := iff_of_false hx.unreal_notMem hy.unreal_notMem
  values := by
    ext z
    constructor
    · rintro ⟨f, hf, rfl⟩
      exact hys.complete hy _ (hxs.sound hf)
    · rintro ⟨f, hf, rfl⟩
      exact hxs.complete hx _ (hys.sound hf)

theorem agree_self {v : Atom → K} (h : ∀ a ∈ xs, ¬ a.IsApproximate) : Agree v xs xs :=
  ⟨.inr fun a ha => (List.mem_append.1 ha).elim (h a) (h a), Iff.rfl, rfl⟩

theorem agree_of_isApproximate {v : Atom → K} (h : ∀ a ∈ xs ++ ys, a.IsApproximate) :
    Agree v xs ys := by
  have hunreal : .unreal ∉ xs ++ ys := by
    intro hmem
    obtain ⟨z, hz⟩ := h _ hmem
    cases hz
  have hexact : ∀ f, .exact f ∉ xs ++ ys := by
    intro f hmem
    obtain ⟨z, hz⟩ := h _ hmem
    cases hz
  simp only [List.mem_append, not_or] at hunreal hexact
  refine ⟨.inl h, iff_of_false hunreal.1 hunreal.2, ?_⟩
  ext z
  refine iff_of_false ?_ ?_
  · rintro ⟨f, hf, -⟩
    exact (hexact f).1 hf
  · rintro ⟨f, hf, -⟩
    exact (hexact f).2 hf

/-- The same exact answer before lists that agree. -/
theorem Agree.cons {v : Atom → K} (h : Agree v xs ys) (hnone : ∀ a ∈ xs ++ ys, ¬ a.IsApproximate)
    (f : Form) : Agree v (.exact f :: xs) (.exact f :: ys) where
  approximate := by
    have hexact : ¬ (exact f).IsApproximate := by
      rintro ⟨z, hz⟩
      cases hz
    refine .inr fun a ha => ?_
    rcases List.mem_append.1 ha with ha | ha
    · rcases List.mem_cons.1 ha with rfl | ha
      · exact hexact
      · exact hnone a (List.mem_append_left _ ha)
    · rcases List.mem_cons.1 ha with rfl | ha
      · exact hexact
      · exact hnone a (List.mem_append_right _ ha)
  unreal := by simpa using h.unreal
  values := by
    have hinsert : ∀ zs, Answer.values v (.exact f :: zs) = insert (f.value v) (Answer.values v zs) := by
      intro zs
      ext z
      simp [Answer.values, or_and_right, exists_or, eq_comm]
    rw [hinsert, hinsert, h.values]

/-- Listing keeps what agrees. -/
theorem Agree.listed {v : Atom → K} (h : Agree v xs ys) (p : Preferences) :
    Agree v (listed p xs) (listed p ys) := by
  rcases h.approximate with happroximate | hnone
  · have hlisted : ∀ a ∈ Answer.listed p xs ++ Answer.listed p ys, a.IsApproximate := by
      intro a ha
      refine happroximate a (List.mem_append.2 ?_)
      exact (List.mem_append.1 ha).imp mem_of_mem_listed mem_of_mem_listed
    exact agree_of_isApproximate hlisted
  · have hx : ∀ a ∈ xs, ¬ a.IsApproximate := fun a ha => hnone a (List.mem_append_left _ ha)
    have hy : ∀ a ∈ ys, ¬ a.IsApproximate := fun a ha => hnone a (List.mem_append_right _ ha)
    refine ⟨.inr fun a ha => ?_, ?_, ?_⟩
    · rcases List.mem_append.1 ha with ha | ha
      · exact hx a (mem_of_mem_listed ha)
      · exact hy a (mem_of_mem_listed ha)
    · rw [mem_listed_iff hx, mem_listed_iff hy]
      exact h.unreal
    · have hvalues := h.values
      simpa only [Answer.values, mem_listed_iff hx, mem_listed_iff hy] using hvalues

/-- What an answer is worth, if it is exact. -/
def valueIn? (v : Atom → K) : Answer → Option K
  | .exact f => some (f.value v)
  | _ => none

/-- Lists that agree have the same length, if no answer is listed twice. -/
theorem Agree.length_eq {v : Atom → K} (h : Agree v xs ys) (hx : xs.Nodup) (hy : ys.Nodup)
    (hnone : ∀ a ∈ xs ++ ys, ¬ a.IsApproximate) (hxs : Unrepeated v xs) (hys : Unrepeated v ys) :
    xs.length = ys.length := by
  have hnodup : ∀ {zs : List Answer}, zs.Nodup → (∀ a ∈ zs, ¬ a.IsApproximate) →
      Unrepeated v zs → (zs.map (valueIn? v)).Nodup := by
    intro zs hzs hnone hunrepeated
    refine List.Nodup.map_on (fun a ha b hb heq => ?_) hzs
    cases a with
    | exact f =>
      cases b with
      | exact g => rw [hunrepeated f g ha hb (Option.some.inj heq)]
      | unreal => cases heq
      | approximate w => exact absurd ⟨w, rfl⟩ (hnone _ hb)
    | unreal =>
      cases b with
      | exact g => cases heq
      | unreal => rfl
      | approximate w => exact absurd ⟨w, rfl⟩ (hnone _ hb)
    | approximate w => exact absurd ⟨w, rfl⟩ (hnone _ ha)
  have hmem : ∀ {zs : List Answer}, (∀ a ∈ zs, ¬ a.IsApproximate) → ∀ o,
      o ∈ zs.map (valueIn? v) ↔ o = none ∧ .unreal ∈ zs ∨ ∃ z ∈ Answer.values v zs, o = some z := by
    intro zs hnone o
    rw [List.mem_map]
    constructor
    · rintro ⟨a, ha, rfl⟩
      cases a with
      | exact f => exact .inr ⟨_, ⟨f, ha, rfl⟩, rfl⟩
      | unreal => exact .inl ⟨rfl, ha⟩
      | approximate w => exact absurd ⟨w, rfl⟩ (hnone _ ha)
    · rintro (⟨rfl, hunreal⟩ | ⟨z, ⟨f, hf, rfl⟩, rfl⟩)
      · exact ⟨_, hunreal, rfl⟩
      · exact ⟨_, hf, rfl⟩
  have hnoneX : ∀ a ∈ xs, ¬ a.IsApproximate := fun a ha => hnone a (List.mem_append_left _ ha)
  have hnoneY : ∀ a ∈ ys, ¬ a.IsApproximate := fun a ha => hnone a (List.mem_append_right _ ha)
  have hperm : (xs.map (valueIn? v)).Perm (ys.map (valueIn? v)) := by
    refine (List.perm_ext_iff_of_nodup (hnodup hx hnoneX hxs) (hnodup hy hnoneY hys)).2 fun o => ?_
    rw [hmem hnoneX, hmem hnoneY, h.unreal, h.values]
  simpa using hperm.length_eq

/-- The same of lists in order, where exact and approximate answers do not mix. -/
theorem Agree.length_listed_eq {v : Atom → K} (h : Agree v xs ys)
    (hnone : ∀ a ∈ Answer.listed p xs ++ Answer.listed p ys, ¬ a.IsApproximate)
    (hxs : Unrepeated v (Answer.listed p xs)) (hys : Unrepeated v (Answer.listed p ys)) :
    (Answer.listed p xs).length = (Answer.listed p ys).length := by
  rcases h.approximate with happroximate | hexact
  · -- there can be no answers at all
    have hempty : ∀ zs, (∀ a ∈ zs, a ∈ xs ++ ys) → (∀ a ∈ Answer.listed p zs, ¬ a.IsApproximate) →
        Answer.listed p zs = [] := fun zs hzs hlisted => List.eq_nil_iff_forall_not_mem.2 fun a ha =>
      hlisted a ha (happroximate a (hzs a (mem_of_mem_listed ha)))
    rw [hempty xs (fun _ => List.mem_append_left _) fun a ha => hnone a (List.mem_append_left _ ha),
      hempty ys (fun _ => List.mem_append_right _) fun a ha => hnone a (List.mem_append_right _ ha)]
  · exact (h.listed p).length_eq
      (nodup_listed fun a ha => hexact a (List.mem_append_left _ ha))
      (nodup_listed fun a ha => hexact a (List.mem_append_right _ ha)) hnone hxs hys

theorem Unrepeated.listed {v : Atom → K} (h : Unrepeated v xs) (p : Preferences) :
    Unrepeated v (listed p xs) :=
  fun f g hf hg hvalue => h f g (mem_of_mem_listed hf) (mem_of_mem_listed hg) hvalue

end Answer

/-! ### Quadratic equations -/

variable [CharZero K] {a b c d k x : Rat}

namespace Quadratic

theorem hasRoot_ofRats_scale (hk : k ≠ 0) {z : K} :
    (ofRats (a * k) (b * k) (c * k)).HasRoot v z ↔ (ofRats a b c).HasRoot v z := by
  have hk' : (k : K) ≠ 0 := Rat.cast_ne_zero.2 hk
  have hscale : ((a * k : Rat) : K) * (z * z) + ((b * k : Rat) : K) * z + ((c * k : Rat) : K) =
      (a * (z * z) + b * z + c) * k := by
    push_cast
    ring
  simp only [HasRoot, ofRats, value_ofRat]
  rw [hscale, mul_eq_zero, or_iff_left hk']

omit [CharZero K] in
theorem discrim_scale_neg_iff (hk : k ≠ 0) :
    discrim (a * k) (b * k) (c * k) < 0 ↔ discrim a b c < 0 := by
  have hscale : discrim (a * k) (b * k) (c * k) = discrim a b c * k ^ 2 := by
    rw [discrim, discrim]
    ring
  rw [hscale, Rat.mul_neg_iff_of_pos_right (pow_two_pos_of_ne_zero hk)]

/-- The answers to a quadratic equation and to its multiple agree. -/
theorem agree_roots (hv : ∀ {q : Rat}, q ≠ 0 → v.Lawful (.radical (ofRat q) 2)) (ha : a ≠ 0)
    (hk : k ≠ 0) :
    Answer.Agree v ((ofRats a b c).roots p) ((ofRats (a * k) (b * k) (c * k)).roots p) := by
  have hneg := discrim_scale_neg_iff (a := a) (b := b) (c := c) hk
  by_cases hunreal : p.complexFormat = .real ∧ discrim a b c < 0
  · rw [roots_of_discrim_neg ha hunreal.1 hunreal.2,
      roots_of_discrim_neg (mul_ne_zero ha hk) hunreal.1 (hneg.2 hunreal.2)]
    exact Answer.agree_self (by simp [Answer.IsApproximate])
  · refine Answer.agree_of_solve (allExact_roots ha hunreal)
      (allExact_roots (mul_ne_zero ha hk) (by rwa [hneg]))
      (solve_roots reduced_ofRats (admitsQuadratic_ofRats hv)) ?_
    have hsolve := solve_roots (p := p) (q := ofRats (a * k) (b * k) (c * k)) reduced_ofRats
      (admitsQuadratic_ofRats hv)
    rwa [show (ofRats (a * k) (b * k) (c * k)).HasRoot v = (ofRats a b c).HasRoot v from
      funext fun z => propext (hasRoot_ofRats_scale hk)] at hsolve

end Quadratic

/-! ### Cubic equations -/

namespace Cubic

theorem vanishes_scale (hk : k ≠ 0) :
    Vanishes (a * k) (b * k) (c * k) (d * k) x ↔ Vanishes a b c d x := by
  have hscale : ((a * k * x + b * k) * x + c * k) * x + d * k =
      (((a * x + b) * x + c) * x + d) * k := by ring
  rw [Vanishes, hscale, mul_eq_zero, or_iff_left hk, Vanishes]

theorem discriminant_scale : CubicRoots.discriminant (a * k) (b * k) (c * k) (d * k) =
    CubicRoots.discriminant a b c d * k ^ 4 := by
  rw [CubicRoots.discriminant, CubicRoots.discriminant]
  ring

theorem isPure_scale (hk : k ≠ 0) : IsPure (b * k) (c * k) (d * k) ↔ IsPure b c d := by
  simp [IsPure, hk]

/-- The answers to a pure equation depend on a quotient only. -/
theorem roots_scale_of_isPure (ha : a ≠ 0) (hk : k ≠ 0) (h : IsPure b c d) :
    (ofRats (a * k) (b * k) (c * k) (d * k)).roots p = (ofRats a b c d).roots p := by
  rw [roots_of_isPure h, roots_of_isPure ((isPure_scale hk).2 h), pureRoots, pureRoots]
  dsimp only [ofRats]
  rw [neg_ofRat, neg_ofRat, divide?_ofRat ha, divide?_ofRat (mul_ne_zero ha hk), ← neg_mul,
    mul_div_mul_right _ _ hk]

/-- A cubic polynomial, given by its coefficients with the constant first, has a rational root, but
only the search finds a simple root: it has a discriminant and is not pure, and none of the roots
that are easy to see is one. -/
def NeedsSearch : List Rat → Prop
  | [d, c, b, a] =>
    CubicRoots.discriminant a b c d ≠ 0 ∧ ¬ IsPure b c d ∧ (∃ x, Vanishes a b c d x) ∧
      ∀ x ∈ [0, -d / c, -b / a], ¬ Vanishes a b c d x
  | _ => False

/-- A simple root is found of a polynomial and of its multiple, or of neither. -/
theorem simpleRoot?_scale_eq_none_iff (ha : a ≠ 0) (hk : k ≠ 0) (hpure : ¬ IsPure b c d)
    (hdisc : CubicRoots.discriminant a b c d ≠ 0)
    (hsearch : NeedsSearch [d, c, b, a] →
      (SearchesRoots [a, b, c, d] ↔ SearchesRoots [a * k, b * k, c * k, d * k])) :
    (ofRats (a * k) (b * k) (c * k) (d * k)).simpleRoot? = none ↔
      (ofRats a b c d).simpleRoot? = none := by
  have hroots : (∃ x, ((a * k * x + b * k) * x + c * k) * x + d * k = 0) ↔
      ∃ x, ((a * x + b) * x + c) * x + d = 0 := exists_congr fun x => vanishes_scale hk
  rw [simpleRoot?_eq_none_iff ha, simpleRoot?_eq_none_iff (mul_ne_zero ha hk),
    rationalRootOf?_eq_none_iff, rationalRootOf?_eq_none_iff, hroots, ← neg_mul, ← neg_mul,
    mul_div_mul_right _ _ hk, mul_div_mul_right _ _ hk]
  simp only [vanishes_scale hk]
  refine and_congr_right fun hseen => not_congr (and_congr_left fun hroot => ?_)
  exact (hsearch ⟨hdisc, hpure, hroot, hseen⟩).symm

theorem hasRoot_ofRats_scale (hk : k ≠ 0) {z : K} :
    (ofRats (a * k) (b * k) (c * k) (d * k)).HasRoot v z ↔ (ofRats a b c d).HasRoot v z := by
  have hk' : (k : K) ≠ 0 := Rat.cast_ne_zero.2 hk
  have hscale : (((a * k : Rat) : K) * z + ((b * k : Rat) : K)) * z + ((c * k : Rat) : K) =
      ((a * z + b) * z + c) * k := by
    push_cast
    ring
  rw [hasRoot_ofRats, hasRoot_ofRats, hscale]
  push_cast
  rw [← mul_right_comm, ← add_mul, mul_eq_zero, or_iff_left hk']

/-- The answers to a cubic equation and to its multiple agree, if its rational roots are searched
for both or for neither. -/
theorem agree_roots (hv : ∀ {q : Rat}, q ≠ 0 → v.Lawful (.radical (ofRat q) 2)) (ha : a ≠ 0)
    (hk : k ≠ 0) (hsearch : NeedsSearch [d, c, b, a] →
      (SearchesRoots [a, b, c, d] ↔ SearchesRoots [a * k, b * k, c * k, d * k])) :
    Answer.Agree v ((ofRats a b c d).roots p)
      ((ofRats (a * k) (b * k) (c * k) (d * k)).roots p) := by
  have hak : a * k ≠ 0 := mul_ne_zero ha hk
  -- exact answers to both are the same roots
  have hexact : ¬ IsPure b c d → Answer.AllExact ((ofRats a b c d).roots p) →
      Answer.AllExact ((ofRats (a * k) (b * k) (c * k) (d * k)).roots p) →
      Answer.Agree v ((ofRats a b c d).roots p)
        ((ofRats (a * k) (b * k) (c * k) (d * k)).roots p) := by
    intro hpure hall hall'
    refine Answer.agree_of_solve hall hall' (solve_roots_ofRats hv ha hpure) ?_
    have hsolve := solve_roots_ofRats (p := p) hv hak (mt (isPure_scale hk).1 hpure)
    rwa [show (ofRats (a * k) (b * k) (c * k) (d * k)).HasRoot v = (ofRats a b c d).HasRoot v from
      funext fun z => propext (hasRoot_ofRats_scale hk)] at hsolve
  by_cases hdisc : CubicRoots.discriminant a b c d = 0
  · have hdisc' : CubicRoots.discriminant (a * k) (b * k) (c * k) (d * k) = 0 := by
      rw [discriminant_scale, hdisc, zero_mul]
    exact hexact (not_isPure_of_discriminant ha hdisc) (allExact_of_discriminant ha hdisc)
      (allExact_of_discriminant hak hdisc')
  by_cases hpure : IsPure b c d
  · rw [roots_scale_of_isPure ha hk hpure, roots_of_isPure hpure]
    exact Answer.agree_self fun _ => not_isApproximate_of_mem_pureRoots ha
  have hpure' : ¬ IsPure (b * k) (c * k) (d * k) := mt (isPure_scale hk).1 hpure
  have hdisc' : CubicRoots.discriminant (a * k) (b * k) (c * k) (d * k) ≠ 0 := by
    rw [discriminant_scale]
    exact mul_ne_zero hdisc (pow_ne_zero 4 hk)
  have hnone := simpleRoot?_scale_eq_none_iff ha hk hpure hdisc hsearch
  by_cases hsimple : (ofRats a b c d).simpleRoot? = none
  · refine Answer.agree_of_isApproximate fun y hy => ?_
    rcases List.mem_append.1 hy with hy | hy
    · exact isApproximate_of_mem_roots hpure hdisc hsimple hy
    · exact isApproximate_of_mem_roots hpure' hdisc' (hnone.2 hsimple) hy
  · obtain ⟨x, hx, hroots⟩ := exists_roots_eq_cons (p := p) hpure hsimple
    obtain ⟨y, hy, hroots'⟩ := exists_roots_eq_cons (p := p) hpure' (mt hnone.1 hsimple)
    have hy := (vanishes_scale hk).1 hy
    have hlinear : a * k * y + b * k = (a * y + b) * k := by ring
    rw [hlinear, mul_right_comm, ← add_mul] at hroots'
    by_cases heq : y = x
    · -- the same root leaves a quadratic equation and its multiple
      subst heq
      rw [hroots, hroots']
      refine (Quadratic.agree_roots hv ha hk).cons (fun z hz => ?_) _
      rcases List.mem_append.1 hz with hz | hz
      · exact Quadratic.not_isApproximate_of_mem_roots (ofRat_ne_zero ha) hz
      · exact Quadratic.not_isApproximate_of_mem_roots (ofRat_ne_zero hak) hz
    · -- of two rational roots, each leaves an equation with real roots
      refine hexact hpure ?_ ?_
      · rw [hroots]
        exact List.forall_mem_cons.2 ⟨⟨_, rfl⟩, Quadratic.allExact_roots ha fun h =>
          (discrimBeside_nonneg_of_ne hx hy heq).not_gt h.2⟩
      · rw [hroots']
        exact List.forall_mem_cons.2 ⟨⟨_, rfl⟩, Quadratic.allExact_roots hak fun h =>
          (discrimBeside_nonneg_of_ne hy hx (Ne.symm heq)).not_gt
            ((Quadratic.discrim_scale_neg_iff hk).1 h.2)⟩

/-- With a discriminant there are as many answers to the equation as to its multiple. -/
theorem length_listed_roots (hv : ∀ {q : Rat}, q ≠ 0 → v.Lawful (.radical (ofRat q) 2))
    (ha : a ≠ 0) (hk : k ≠ 0) (hdisc : CubicRoots.discriminant a b c d ≠ 0)
    (h : Answer.Agree v ((ofRats a b c d).roots p)
      ((ofRats (a * k) (b * k) (c * k) (d * k)).roots p))
    (hnone : ∀ x ∈ Answer.listed p ((ofRats a b c d).roots p) ++
      Answer.listed p ((ofRats (a * k) (b * k) (c * k) (d * k)).roots p), ¬ x.IsApproximate) :
    (Answer.listed p ((ofRats a b c d).roots p)).length =
      (Answer.listed p ((ofRats (a * k) (b * k) (c * k) (d * k)).roots p)).length := by
  by_cases hpure : IsPure b c d
  · rw [roots_scale_of_isPure ha hk hpure]
  · have hdisc' : CubicRoots.discriminant (a * k) (b * k) (c * k) (d * k) ≠ 0 := by
      rw [discriminant_scale]
      exact mul_ne_zero hdisc (pow_ne_zero 4 hk)
    exact h.length_listed_eq hnone ((unrepeated_roots hv ha hpure hdisc).listed p)
      ((unrepeated_roots hv (mul_ne_zero ha hk) (mt (isPure_scale hk).1 hpure) hdisc').listed p)

end Cubic

/-! ### Polynomial equations -/

namespace Form

/-- The discriminant of a quadratic or cubic polynomial, given by its coefficients, the constant
first. -/
def discriminantOf : List Rat → Rat
  | [c, b, a] => discrim a b c
  | [d, c, b, a] => CubicRoots.discriminant a b c d
  | _ => 0

theorem polynomialRoots?_ofRats_quadratic {f : Form} {unknown : Nat}
    (h : f.polynomial? unknown maxExactDegree = some ([c, b, a].map ofRat)) :
    f.polynomialRoots? p unknown = some
      { degree := 2
        answers := Answer.listed p ((Quadratic.ofRats a b c).roots p) ++
          [.exact (ofRat (discrim a b c))] } := by
  rw [polynomialRoots?, h, ← Quadratic.discriminant_ofRats]
  rfl

theorem polynomialRoots?_ofRats_cubic {f : Form} {unknown : Nat}
    (h : f.polynomial? unknown maxExactDegree = some ([d, c, b, a].map ofRat)) :
    f.polynomialRoots? p unknown = some
      { degree := 3
        answers := Answer.listed p ((Cubic.ofRats a b c d).roots p) ++
          [.exact (ofRat (CubicRoots.discriminant a b c d))] } := by
  rw [polynomialRoots?, h, ← Cubic.discriminant_ofRats]
  rfl

/-- **Multiples of an equation.**  The answers to a quadratic or cubic equation with rational
coefficients and to its multiple agree, if rational roots are searched for both or for neither, or
not needed: the one are exact where the others are, and then they have the same values.  There are
as many of them if no value is listed in two forms, as it is where the discriminant is not zero. -/
theorem polynomialRoots?_scale (symbols : Nat → ℂ) (functions : Builtin → List ℂ → ℂ) {f : Form}
    {unknown : Nat} {qs : List Rat} (hf : f.IsPolynomial unknown qs)
    (hdegree : qs.length = 3 ∨ qs.length = 4) {k : Rat} (hk : k ≠ 0)
    (hsearch : Cubic.NeedsSearch qs →
      (Cubic.SearchesRoots qs.reverse ↔ Cubic.SearchesRoots (qs.map (· * k)).reverse))
    (p : Preferences) : ∃ answers scaled : List Answer,
      f.polynomialRoots? p unknown =
        some { degree := qs.length - 1, answers := answers ++ [.exact (ofRat (discriminantOf qs))] } ∧
      (f.scale k).polynomialRoots? p unknown =
        some { degree := qs.length - 1
               answers := scaled ++ [.exact (ofRat (discriminantOf (qs.map (· * k))))] } ∧
      Answer.Agree (Valuation.principal symbols functions) answers scaled ∧
      ((∀ a ∈ answers ++ scaled, ¬ a.IsApproximate) →
        qs.length = 3 ∨ discriminantOf qs ≠ 0 ∨
          Answer.Unrepeated (Valuation.principal symbols functions) answers ∧
            Answer.Unrepeated (Valuation.principal symbols functions) scaled →
        answers.length = scaled.length) := by
  have hv : ∀ {q : Rat}, q ≠ 0 →
      (Valuation.principal symbols functions).Lawful (.radical (ofRat q) 2) := by
    intro q hq
    refine Valuation.lawful_principal_radical _ _ le_rfl ?_
    rw [value_ofRat]
    exact_mod_cast hq
  have hf : f.polynomial? unknown maxExactDegree = some (qs.map ofRat) :=
    hf.polynomial?_eq (List.ne_nil_of_length_pos (by omega)) (by rw [maxExactDegree]; omega)
  have hscaled := polynomial?_scale hk hf
  rw [List.map_map, show (scale · k) ∘ ofRat = ofRat ∘ (· * k) from
    funext fun q => scale_ofRat q k, ← List.map_map] at hscaled
  obtain ⟨leading, hleading, hne⟩ :=
    getLast_polynomial?_ne_zero hf (by rw [List.length_map]; omega)
  rcases hdegree with hdegree | hdegree
  · obtain ⟨c, b, a, rfl⟩ := List.length_eq_three.1 hdegree
    have ha : a ≠ 0 := by
      rintro rfl
      exact hne ((Option.some.inj hleading).symm.trans ofRat_zero)
    have hagree := Quadratic.agree_roots (p := p) (b := b) (c := c) hv ha hk
    refine ⟨_, _, polynomialRoots?_ofRats_quadratic hf, polynomialRoots?_ofRats_quadratic hscaled,
      hagree.listed p, fun hnone _ => ?_⟩
    exact hagree.length_listed_eq hnone ((Quadratic.unrepeated_roots hv ha).listed p)
      ((Quadratic.unrepeated_roots hv (mul_ne_zero ha hk)).listed p)
  · obtain ⟨d, c, b, a, rfl⟩ := List.length_eq_four.1 hdegree
    have ha : a ≠ 0 := by
      rintro rfl
      exact hne ((Option.some.inj hleading).symm.trans ofRat_zero)
    have hagree := Cubic.agree_roots (p := p) hv ha hk hsearch
    refine ⟨_, _, polynomialRoots?_ofRats_cubic hf, polynomialRoots?_ofRats_cubic hscaled,
      hagree.listed p, fun hnone hunrepeated => ?_⟩
    rcases hunrepeated with hquadratic | hdisc | ⟨hx, hy⟩
    · cases hquadratic
    · exact Cubic.length_listed_roots hv ha hk hdisc hagree hnone
    · exact hagree.length_listed_eq hnone hx hy

/-! ### The equation `3x³ + x² + x - 2 = 0` -/

/-- The polynomial `3x³ + x² + x - 2` in the first symbol, of which two thirds are a root that is
not easy to see. -/
def hiddenRoot : Form :=
  ⟨[(⟨[]⟩, -2), (⟨[(.symbol 0, 1)]⟩, 1), (⟨[(.symbol 0, 2)]⟩, 1), (⟨[(.symbol 0, 3)]⟩, 3)]⟩

theorem isPolynomial_hiddenRoot : hiddenRoot.IsPolynomial 0 [-2, 1, 1, 3] where
  power := by
    intro t ht
    simp only [hiddenRoot, List.mem_cons, List.not_mem_nil, or_false] at ht
    rcases ht with rfl | rfl | rfl | rfl
    · exact ⟨0, by decide, rfl⟩
    · exact ⟨1, by decide, rfl⟩
    · exact ⟨2, by decide, rfl⟩
    · exact ⟨3, by decide, rfl⟩
  coefficient := by with_unfolding_all decide
  leading := by decide

theorem vanishes_hiddenRoot : Cubic.Vanishes 3 1 1 (-2) (2 / 3) := by norm_num [Cubic.Vanishes]

theorem needsSearch_hiddenRoot : Cubic.NeedsSearch [-2, 1, 1, 3] := by
  refine ⟨by norm_num [CubicRoots.discriminant], by norm_num [Cubic.IsPure],
    ⟨2 / 3, vanishes_hiddenRoot⟩, ?_⟩
  norm_num [Cubic.Vanishes]

/-- Doubled, the coefficients are still small enough for the search. -/
theorem polynomialRoots?_scale_hiddenRoot :
    hiddenRoot.IsPolynomial 0 [-2, 1, 1, 3] ∧ Cubic.NeedsSearch [-2, 1, 1, 3] ∧
      Cubic.SearchesRoots [3, 1, 1, -2] ∧ Cubic.SearchesRoots [6, 2, 2, -4] ∧
      ∃ answers scaled : List Answer,
        hiddenRoot.polynomialRoots? {} 0 =
          some { degree := 3, answers := answers ++ [.exact (ofRat (-1083))] } ∧
        (hiddenRoot.scale 2).polynomialRoots? {} 0 =
          some { degree := 3, answers := scaled ++ [.exact (ofRat (-17328))] } ∧
        Answer.Agree unitValuation answers scaled := by
  have hsearch : Cubic.SearchesRoots [3, 1, 1, -2] :=
    ⟨1, by decide +kernel, by decide, by decide +kernel⟩
  have hscaled : Cubic.SearchesRoots [6, 2, 2, -4] :=
    ⟨1, by decide +kernel, by decide, by decide +kernel⟩
  have hdoubled : ([-2, 1, 1, 3].map (· * 2) : List Rat) = [-4, 2, 2, 6] := by decide +kernel
  obtain ⟨answers, scaled, hanswers, hmultiple, hagree, -⟩ :=
    polynomialRoots?_scale (fun _ => 1) (fun _ _ => 1) isPolynomial_hiddenRoot (.inr rfl)
      (k := 2) two_ne_zero (fun _ => iff_of_true hsearch (by rw [hdoubled]; exact hscaled)) {}
  rw [hdoubled] at hmultiple
  refine ⟨isPolynomial_hiddenRoot, needsSearch_hiddenRoot, hsearch, hscaled, answers, scaled,
    ?_, ?_, hagree⟩
  · rw [hanswers, show discriminantOf [-2, 1, 1, 3] = -1083 by decide +kernel]
    rfl
  · rw [hmultiple, show discriminantOf [-4, 2, 2, 6] = -17328 by decide +kernel]
    rfl

/-- **The size of the coefficients counts.**  Of the multiple by a million and one, the roots are
not searched and known in doubles only, and one of them is exact for the polynomial itself. -/
theorem exists_polynomialRoots?_scale_ne :
    ∃ (f : Form) (qs : List Rat) (k : Rat) (answers scaled : List Answer) (delta delta' : Form),
      f.IsPolynomial 0 qs ∧ qs.length = 4 ∧ k ≠ 0 ∧
      f.polynomialRoots? {} 0 = some { degree := 3, answers := answers ++ [.exact delta] } ∧
      (f.scale k).polynomialRoots? {} 0 =
        some { degree := 3, answers := scaled ++ [.exact delta'] } ∧
      .exact (ofRat (2 / 3)) ∈ answers ∧ scaled ≠ [] ∧ ∀ a ∈ scaled, a.IsApproximate := by
  have hpolynomial : hiddenRoot.polynomial? 0 maxExactDegree =
      some ([-2, 1, 1, 3].map ofRat) := by decide +kernel
  have hscaled : (hiddenRoot.scale 1000001).polynomial? 0 maxExactDegree =
      some ([-2000002, 1000001, 1000001, 3000003].map ofRat) := by decide +kernel
  have hsimple : (Cubic.ofRats 3 1 1 (-2)).simpleRoot? = some (ofRat (2 / 3)) := by decide +kernel
  have hnone : (Cubic.ofRats 3000003 1000001 1000001 (-2000002)).simpleRoot? = none := by
    decide +kernel
  have hpure : ¬ Cubic.IsPure 1000001 1000001 (-2000002) := by norm_num [Cubic.IsPure]
  have hdisc : CubicRoots.discriminant (3000003 : Rat) 1000001 1000001 (-2000002) ≠ 0 := by
    norm_num [CubicRoots.discriminant]
  refine ⟨hiddenRoot, _, 1000001, _, _, _, _, isPolynomial_hiddenRoot, rfl, by norm_num,
    polynomialRoots?_ofRats_cubic hpolynomial, polynomialRoots?_ofRats_cubic hscaled, ?_, ?_, ?_⟩
  · have hroots : (Cubic.ofRats 3 1 1 (-2)).roots {} = _ :=
      (Cubic.roots_of_not_isPure (by norm_num [Cubic.IsPure])).trans
        (by rw [hsimple, Option.map_some, Option.getD_some,
          Cubic.rootsBeside_ofRats vanishes_hiddenRoot])
    rw [hroots]
    refine (Answer.mem_listed_iff fun x hx => ?_).2 List.mem_cons_self
    rcases List.mem_cons.1 hx with rfl | hx
    · rintro ⟨z, hz⟩
      cases hz
    · exact Quadratic.not_isApproximate_of_mem_roots (ofRat_ne_zero (q := 3) (by norm_num)) hx
  · rw [Cubic.roots_eq_numericRoots hpure hdisc hnone]
    exact Answer.listed_ne_nil (Cubic.numericRoots_ne_nil _ _)
  · exact fun x hx => Cubic.isApproximate_of_mem_roots hpure hdisc hnone
      (Answer.mem_of_mem_listed hx)

end Form

end Resolvent

import Resolvent.Proofs.Form.Stored
import Resolvent.Proofs.Numeric.Quotients
import Resolvent.Proofs.Solve.Scaling

/-!
# The order of rational roots

Answers are listed in the order of their values in doubles (`Answer.pairwise_listed`), those with
equal ones as they were found.  A rational number has a double that is close to it, if numerator and
denominator have at most 53 bits, so rational roots that are not too close to each other are listed
in increasing order (`Form.rationals_polynomialRoots?`).  Doubles do not tell others apart, and the
larger of two roots may be listed first (`Form.exists_rationals_not_increasing`).
-/

namespace Resolvent

open Form

namespace Answer

/-! ### Listing in order -/

section Order

variable {p : Preferences} {z w u : Complex}

theorem before_iff : before z w = true ↔ kindRank z < kindRank w ∨ kindRank z = kindRank w ∧
    (kindRank z = 0 ∧ Double.rank z.re < Double.rank w.re ∨
      kindRank z = 1 ∧ Double.rank z.im < Double.rank w.im) := by
  unfold before
  split_ifs <;> simp only [decide_eq_true_eq, true_iff, false_iff] <;> omega

theorem before_asymm (z w : Complex) : before w z = false ∨ before z w = false := by
  simp only [← Bool.not_eq_true, before_iff]
  omega

theorem before_trans (h : before w z = false) (h' : before u w = false) : before u z = false := by
  simp only [← Bool.not_eq_true, before_iff] at h h' ⊢
  omega

theorem distinct_sublist (answers : List (Complex × Answer)) :
    (distinct answers).Sublist answers := by
  have hfold : ∀ kept : List (Complex × Answer),
      (answers.foldl (fun kept x => if kept.any (same x) then kept else kept ++ [x]) kept).Sublist
        (kept ++ answers) := by
    induction answers with
    | nil => intro kept; simp
    | cons x answers ih =>
      intro kept
      rw [List.foldl_cons]
      split
      · exact (ih kept).trans (List.Sublist.append_left (List.sublist_cons_self x answers) kept)
      · simpa using ih (kept ++ [x])
  exact hfold []

/-- **No answer is listed behind one that it comes before.** -/
theorem pairwise_listed (p : Preferences) (answers : List Answer) :
    (listed p answers).Pairwise fun a b => before (b.value p) (a.value p) = false := by
  have hsorted : ((answers.map fun a => (a.value p, a)).mergeSort
      fun x y => !before y.1 x.1).Pairwise fun x y => !before y.1 x.1 :=
    List.pairwise_mergeSort
      (fun x y z hxy hyz => by
        rw [Bool.not_eq_true'] at hxy hyz ⊢
        exact before_trans hxy hyz)
      (fun x y => by simpa using before_asymm x.1 y.1) _
  have hvalue : ∀ x ∈ distinct ((answers.map fun a => (a.value p, a)).mergeSort
      fun x y => !before y.1 x.1), x.1 = x.2.value p := by
    intro x hx
    obtain ⟨a, -, rfl⟩ := List.mem_map.1 (List.mem_mergeSort.1 (mem_of_mem_distinct hx))
    rfl
  refine List.pairwise_map.2 ((hsorted.sublist (distinct_sublist _)).imp_of_mem ?_)
  intro x y hx hy hle
  rw [← hvalue x hx, ← hvalue y hy]
  simpa using hle

theorem distinct_of_pairwise {answers : List (Complex × Answer)}
    (h : answers.Pairwise fun y x => same x y = false) : distinct answers = answers := by
  have hfold : ∀ kept : List (Complex × Answer),
      (kept ++ answers).Pairwise (fun y x => same x y = false) →
        answers.foldl (fun kept x => if kept.any (same x) then kept else kept ++ [x]) kept =
          kept ++ answers := by
    clear h
    induction answers with
    | nil => simp
    | cons x answers ih =>
      intro kept h
      have hnone : kept.any (same x) = false :=
        List.any_eq_false.2 fun y hy => by
          simp [(List.pairwise_append.1 h).2.2 y hy x List.mem_cons_self]
      rw [List.foldl_cons, hnone, if_neg Bool.false_ne_true, ih _ (by simpa using h),
        List.append_assoc, List.singleton_append]
  exact hfold [] h

/-- Answers that differ and are in order are listed as they are. -/
theorem listed_of_pairwise {answers : List Answer}
    (hbefore : answers.Pairwise fun a b => before (b.value p) (a.value p) = false)
    (hsame : answers.Pairwise fun a b => same (b.value p, b) (a.value p, a) = false) :
    listed p answers = answers := by
  have hsorted : (answers.map fun a => (a.value p, a)).mergeSort (fun x y => !before y.1 x.1) =
      answers.map fun a => (a.value p, a) :=
    List.mergeSort_of_pairwise (List.pairwise_map.2 (hbefore.imp fun h => by simpa using h))
  rw [listed, hsorted, distinct_of_pairwise (List.pairwise_map.2 hsame), List.map_map]
  exact List.map_id' _

end Order

/-! ### Rational answers -/

/-- The rational number that an answer is. -/
def rational? : Answer → Option Rat
  | exact f => f.toRat?
  | _ => none

/-- The rational numbers among answers, in their order. -/
def rationals (answers : List Answer) : List Rat := answers.filterMap rational?

/-- The double that orders a rational number among answers. -/
def number (p : Preferences) (q : Rat) : Float := ((exact (ofRat q)).value p).re

/-- The forms of exact answers have no coefficients that are zero. -/
def Tidy (answers : List Answer) : Prop := ∀ f, .exact f ∈ answers → f.NoZeros

variable {p : Preferences} {answers : List Answer} {q r : Rat}

theorem eq_ofRat_of_rational? (htidy : Tidy answers) {a : Answer} (ha : a ∈ answers)
    (h : a.rational? = some q) : a = .exact (ofRat q) := by
  cases a with
  | exact f => rw [eq_ofRat_of_toRat? (htidy f ha) h]
  | unreal => cases h
  | approximate z => cases h

theorem value_zero (p : Preferences) : (exact (ofRat 0)).value p = Complex.zero := by
  rw [ofRat_zero]
  exact constantValue_zero p.angleUnit

theorem value_ofRat (p : Preferences) (hq : q ≠ 0) :
    (exact (ofRat q)).value p = ⟨0.0 + Double.ofRational q, 0.0 + 0.0⟩ := by
  rw [value, ofRat, if_neg hq]
  rfl

theorem kindRank_value (h : (number p q).isNaN = false) :
    kindRank ((exact (ofRat q)).value p) = 0 := by
  have him : ((exact (ofRat q)).value p).im.isNaN = false ∧
      (((exact (ofRat q)).value p).im == 0.0) = true := by
    by_cases hq : q = 0
    · rw [hq, value_zero]
      exact ⟨by decide +kernel, by decide +kernel⟩
    · rw [value_ofRat p hq]
      exact ⟨(by decide +kernel : (0.0 + 0.0 : Float).isNaN = false),
        (by decide +kernel : (0.0 + 0.0 == (0.0 : Float)) = true)⟩
  have hre : ((exact (ofRat q)).value p).re.isNaN = false := h
  rw [kindRank, hre, him.1, him.2]
  rfl

/-- Rational answers stand in the order of their doubles. -/
theorem toRational_number_le
    (h : before ((exact (ofRat r)).value p) ((exact (ofRat q)).value p) = false)
    (hq : (number p q).isNaN = false) (hr : (number p r).isNaN = false) :
    Double.toRational (number p q) ≤ Double.toRational (number p r) := by
  by_contra hlt
  have hrank := Double.rank_lt_of_toRational_lt (not_le.1 hlt)
  have hbefore := before_iff.2 (.inr ⟨(kindRank_value hr).trans (kindRank_value hq).symm,
    .inl ⟨kindRank_value hr, hrank⟩⟩)
  rw [h] at hbefore
  cases hbefore

/-- Numerator and denominator have at most 53 bits. -/
def IsShort (q : Rat) : Prop := q.num.natAbs < 2 ^ 53 ∧ q.den < 2 ^ 53

/-- The double of a number with few bits is a number that is close to it. -/
theorem number_spec (p : Preferences) (h : IsShort q) : (number p q).isNaN = false ∧
    |Double.toRational (number p q) - q| ≤ |q| / 2 ^ 53 := by
  rw [number]
  by_cases hq : q = 0
  · rw [hq, value_zero]
    exact ⟨by decide +kernel, by decide +kernel⟩
  · rw [value_ofRat p hq]
    exact Double.zero_add_ofRational_spec hq h.1 h.2

/-- Doubles tell the numbers apart: they have few bits, and they differ by more than rounding both
may change. -/
structure Apart (q r : Rat) : Prop where
  /-- The first number has few bits. -/
  left : IsShort q
  /-- The second number has few bits. -/
  right : IsShort r
  /-- The difference is not too small. -/
  gap : |q| + |r| < 2 ^ 53 * |q - r|

theorem abs_mul_den (q : Rat) : |q| * q.den = (q.num.natAbs : Rat) := by
  rw [Nat.cast_natAbs, Int.cast_abs, ← Rat.mul_den_eq_num q, abs_mul, Nat.abs_cast]

/-- The difference of two fractions is at least a unit of their common denominator. -/
theorem one_le_abs_sub_mul (hne : q ≠ r) : 1 ≤ |q - r| * (q.den * r.den) := by
  have hcross : (q - r) * (q.den * r.den) =
      ((q.num * r.den - r.num * q.den : Int) : Rat) := by
    have hq := Rat.mul_den_eq_num q
    have hr := Rat.mul_den_eq_num r
    push_cast
    linear_combination r.den * hq - q.den * hr
  have hscale : (0 : Rat) < q.den * r.den := by exact_mod_cast Nat.mul_pos q.den_pos r.den_pos
  have hzero : q.num * r.den - r.num * q.den ≠ 0 := by
    intro hzero
    rw [hzero, Int.cast_zero] at hcross
    exact (mul_ne_zero (sub_ne_zero.2 hne) hscale.ne') hcross
  rw [← abs_of_pos hscale, ← abs_mul, hcross, ← Int.cast_abs]
  exact_mod_cast Int.one_le_abs hzero

/-- Numbers with at most 26 bits in numerator and denominator are told apart. -/
theorem apart_of_lt (hne : q ≠ r) (hq : q.num.natAbs < 2 ^ 26 ∧ q.den < 2 ^ 26)
    (hr : r.num.natAbs < 2 ^ 26 ∧ r.den < 2 ^ 26) : Apart q r := by
  refine ⟨⟨by omega, by omega⟩, ⟨by omega, by omega⟩, ?_⟩
  have hscale : (0 : Rat) < q.den * r.den := by exact_mod_cast Nat.mul_pos q.den_pos r.den_pos
  have hproduct : ∀ {m n : Nat}, m < 2 ^ 26 → n < 2 ^ 26 → ((m : Rat) * n) < 2 ^ 52 := by
    intro m n hm hn
    exact_mod_cast Nat.mul_lt_mul'' hm hn
  have hleft := hproduct hq.1 hr.2
  have hright := hproduct hr.1 hq.2
  rw [← abs_mul_den] at hleft hright
  have hgap := one_le_abs_sub_mul hne
  refine lt_of_mul_lt_mul_right ?_ hscale.le
  linarith

/-- Numbers that doubles tell apart are listed in increasing order. -/
theorem lt_of_apart (h : before ((exact (ofRat r)).value p) ((exact (ofRat q)).value p) = false)
    (hapart : Apart q r) : q < r := by
  obtain ⟨hq, hq'⟩ := number_spec p hapart.left
  obtain ⟨hr, hr'⟩ := number_spec p hapart.right
  have hle := toRational_number_le h hq hr
  have hgap := hapart.gap
  rw [abs_le] at hq' hr'
  by_contra hge
  rw [abs_of_nonneg (sub_nonneg.2 (not_lt.1 hge))] at hgap
  linarith

theorem pairwise_exact_listed (p : Preferences) (answers : List Answer) :
    (listed p answers).Pairwise fun a b => ∀ f, a = .exact f → b ≠ .exact f := by
  refine List.pairwise_map.2 ((pairwise_distinct _).imp fun {x y} hne f hx hy => ?_)
  obtain ⟨z, a⟩ := x
  obtain ⟨w, b⟩ := y
  dsimp only at hx hy
  rw [hx, hy] at hne
  exact absurd (decide_eq_true (rfl : f = f)) (Bool.eq_false_iff.1 hne)

/-- **The rational numbers among answers** are listed once and in the order of their doubles, and
those that doubles tell apart in increasing order. -/
theorem pairwise_rationals_listed (htidy : Tidy answers) :
    (rationals (listed p answers)).Pairwise fun q r => q ≠ r ∧
      ((number p q).isNaN = false → (number p r).isNaN = false →
        Double.toRational (number p q) ≤ Double.toRational (number p r)) ∧
      (Apart q r → q < r) := by
  refine List.pairwise_filterMap.2 (((pairwise_listed p answers).and
    (pairwise_exact_listed p answers)).imp_of_mem ?_)
  rintro a b ha hb ⟨hbefore, hexact⟩ q hq r hr
  obtain rfl := eq_ofRat_of_rational? htidy (mem_of_mem_listed ha) hq
  obtain rfl := eq_ofRat_of_rational? htidy (mem_of_mem_listed hb) hr
  refine ⟨?_, toRational_number_le hbefore, lt_of_apart hbefore⟩
  rintro rfl
  exact hexact _ rfl rfl

theorem mem_rationals_listed (h : ∀ a ∈ answers, ¬ a.IsApproximate) :
    q ∈ rationals (listed p answers) ↔ q ∈ rationals answers := by
  simp only [rationals, List.mem_filterMap, mem_listed_iff h]

theorem tidy_of_isApproximate (h : ∀ a ∈ answers, a.IsApproximate) : Tidy answers := by
  intro f hf
  obtain ⟨z, hz⟩ := h _ hf
  cases hz

theorem Tidy.cons {f : Form} (hf : f.NoZeros) (h : Tidy answers) : Tidy (.exact f :: answers) := by
  intro g hg
  rcases List.mem_cons.1 hg with heq | hg
  · cases heq
    exact hf
  · exact h g hg

theorem tidy_nil : Tidy [] := fun _ hf => absurd hf List.not_mem_nil

end Answer

/-! ### Roots of rational polynomials -/

variable {p : Preferences}

theorem Quadratic.tidy_roots (q : Quadratic) : Answer.Tidy (q.roots p) := by
  unfold roots
  split
  · unfold rootsWith
    dsimp only
    split
    · exact Answer.tidy_nil.cons (noZeros_mul _ _)
    · split
      · exact (Answer.tidy_nil.cons (noZeros_mul _ _)).cons (noZeros_mul _ _)
      · intro f hf
        simp at hf
  · exact Answer.tidy_of_isApproximate fun a ha => ⟨_, List.mem_singleton.1 ha⟩

namespace Cubic

variable {a b c d : Rat}

theorem tidy_pureRoots (ha : a ≠ 0) : Answer.Tidy ((ofRats a b c d).pureRoots p) := by
  unfold pureRoots
  dsimp only [ofRats]
  rw [neg_ofRat, divide?_ofRat ha]
  dsimp only
  split
  · next r hr =>
    have hr : r.NoZeros := (Form.Constructible.root (.ofRat _) hr).noZeros
    exact ((Answer.tidy_nil.cons hr).cons (noZeros_mul _ _)).cons (noZeros_mul _ _)
  · intro f hf
    simp at hf

theorem tidy_multipleRoots (ha : a ≠ 0) : Answer.Tidy (ofRats a b c d).multipleRoots := by
  rw [multipleRoots_ofRats ha]
  split
  · exact Answer.tidy_nil.cons (over_ofRat trivial _)
  · exact (Answer.tidy_nil.cons (over_ofRat trivial _)).cons (over_ofRat trivial _)

theorem tidy_roots (ha : a ≠ 0) : Answer.Tidy ((ofRats a b c d).roots p) := by
  by_cases hpure : IsPure b c d
  · rw [roots_of_isPure hpure]
    exact tidy_pureRoots ha
  · by_cases hsimple : (ofRats a b c d).simpleRoot? = none
    · by_cases hdisc : CubicRoots.discriminant a b c d = 0
      · rw [roots_of_not_isPure hpure, hsimple, if_pos hdisc]
        exact tidy_multipleRoots ha
      · exact Answer.tidy_of_isApproximate fun x hx =>
          isApproximate_of_mem_roots hpure hdisc hsimple hx
    · obtain ⟨x, -, hroots⟩ := exists_roots_eq_cons (p := p) hpure hsimple
      rw [hroots]
      exact (Quadratic.tidy_roots _).cons (over_ofRat trivial x)

end Cubic

namespace Form

variable {f : Form} {unknown : Nat} {qs : List Rat}

/-- What is listed before the discriminant has no coefficients that are zero. -/
theorem IsPolynomial.exists_listed (hf : f.IsPolynomial unknown qs)
    (hdegree : qs.length = 3 ∨ qs.length = 4) (p : Preferences) :
    ∃ answers : List Answer, Answer.Tidy answers ∧ f.polynomialRoots? p unknown =
      some { degree := qs.length - 1
             answers := Answer.listed p answers ++ [.exact (ofRat (discriminantOf qs))] } := by
  have hf : f.polynomial? unknown maxExactDegree = some (qs.map ofRat) :=
    hf.polynomial?_eq (List.ne_nil_of_length_pos (by omega)) (by rw [maxExactDegree]; omega)
  obtain ⟨leading, hleading, hne⟩ :=
    getLast_polynomial?_ne_zero hf (by rw [List.length_map]; omega)
  rcases hdegree with hdegree | hdegree
  · obtain ⟨c, b, a, rfl⟩ := List.length_eq_three.1 hdegree
    exact ⟨_, Quadratic.tidy_roots _, polynomialRoots?_ofRats_quadratic hf⟩
  · obtain ⟨d, c, b, a, rfl⟩ := List.length_eq_four.1 hdegree
    have ha : a ≠ 0 := by
      rintro rfl
      exact hne ((Option.some.inj hleading).symm.trans ofRat_zero)
    exact ⟨_, Cubic.tidy_roots ha, polynomialRoots?_ofRats_cubic hf⟩

/-- The polynomial `a x² + b x + c` in the first symbol. -/
def secondDegree (a b c : Rat) : Form :=
  ⟨[(⟨[]⟩, c), (⟨[(.symbol 0, 1)]⟩, b), (⟨[(.symbol 0, 2)]⟩, a)]⟩

theorem isPolynomial_secondDegree {a b c : Rat} (ha : a ≠ 0) :
    (secondDegree a b c).IsPolynomial 0 [c, b, a] where
  power := by
    intro t ht
    simp only [secondDegree, List.mem_cons, List.not_mem_nil, or_false] at ht
    rcases ht with rfl | rfl | rfl
    · exact ⟨0, by simp, rfl⟩
    · exact ⟨1, by simp, rfl⟩
    · exact ⟨2, by simp, rfl⟩
  coefficient := by
    intro i hi
    rcases i with - | - | - | i
    · simp [secondDegree, Monomial.power]
    · simp [secondDegree, Monomial.power]
    · simp [secondDegree, Monomial.power]
    · rw [List.length_cons, List.length_cons, List.length_singleton] at hi
      omega
  leading := by simpa using ha

/-- The answers to a polynomial of the second degree. -/
theorem polynomialRoots?_secondDegree {a b c : Rat} (ha : a ≠ 0) (p : Preferences) :
    (secondDegree a b c).polynomialRoots? p 0 = some
      { degree := 2
        answers := Answer.listed p ((Quadratic.ofRats a b c).roots p) ++
          [.exact (ofRat (discriminantOf [c, b, a]))] } :=
  polynomialRoots?_ofRats_quadratic
    ((isPolynomial_secondDegree ha).polynomial?_eq (List.cons_ne_nil _ _) (by simp [maxExactDegree]))

/-- The larger root of `-x² + 3x - 2` is found first. -/
theorem roots_oneAndTwo :
    (Quadratic.ofRats (-1) 3 (-2)).roots {} = [.exact (ofRat 2), .exact (ofRat 1)] := by
  with_unfolding_all rfl

/-- **The order of rational roots.**  Before the discriminant, the rational numbers among the roots
of a polynomial of degree two or three are listed once, and in the order of their doubles.  The order
of the numbers themselves shows in it where doubles tell the numbers apart, as they do with all whose
numerators and denominators have at most 26 bits. -/
theorem rationals_polynomialRoots? (hf : f.IsPolynomial unknown qs)
    (hdegree : qs.length = 3 ∨ qs.length = 4) (p : Preferences) :
    ∃ answers : List Answer,
      f.polynomialRoots? p unknown = some
        { degree := qs.length - 1, answers := answers ++ [.exact (ofRat (discriminantOf qs))] } ∧
      (Answer.rationals answers).Nodup ∧
      (Answer.rationals answers).Pairwise (fun q r =>
        (Answer.number p q).isNaN = false → (Answer.number p r).isNaN = false →
          Double.toRational (Answer.number p q) ≤ Double.toRational (Answer.number p r)) ∧
      (Answer.rationals answers).Pairwise (fun q r => Answer.Apart q r → q < r) ∧
      (Answer.rationals answers).Pairwise fun q r => q.num.natAbs < 2 ^ 26 ∧ q.den < 2 ^ 26 →
        r.num.natAbs < 2 ^ 26 ∧ r.den < 2 ^ 26 → q < r := by
  obtain ⟨answers, htidy, hroots⟩ := hf.exists_listed hdegree p
  have hpairwise := Answer.pairwise_rationals_listed (p := p) htidy
  exact ⟨_, hroots, hpairwise.imp fun h => h.1, hpairwise.imp fun h => h.2.1,
    hpairwise.imp fun h => h.2.2,
    hpairwise.imp fun h hq hr => h.2.2 (Answer.apart_of_lt h.1 hq hr)⟩

/-- Of `-x² + 3x - 2`, one is listed before two. -/
theorem rationals_polynomialRoots?_oneAndTwo :
    (secondDegree (-1) 3 (-2)).IsPolynomial 0 [-2, 3, -1] ∧ ∃ answers : List Answer,
      (secondDegree (-1) 3 (-2)).polynomialRoots? {} 0 = some
        { degree := 2, answers := answers ++ [.exact (ofRat (discriminantOf [-2, 3, -1]))] } ∧
      Answer.rationals answers = [1, 2] := by
  have hpolynomial : (secondDegree (-1) 3 (-2)).IsPolynomial 0 [-2, 3, -1] :=
    isPolynomial_secondDegree (by decide)
  obtain ⟨answers, hanswers, -, -, -, hshort⟩ :=
    rationals_polynomialRoots? hpolynomial (.inl rfl) {}
  have hroots := polynomialRoots?_secondDegree (a := -1) (b := 3) (c := -2) (by decide) {}
  rw [roots_oneAndTwo, hanswers, Option.some.injEq, PolynomialRoots.mk.injEq] at hroots
  obtain rfl := List.append_cancel_right hroots.2
  have hmem : ∀ q, q ∈ Answer.rationals (Answer.listed {} [.exact (ofRat 2), .exact (ofRat 1)]) ↔
      q ∈ [1, 2] := by
    intro q
    rw [Answer.mem_rationals_listed (by simp [Answer.IsApproximate]),
      show Answer.rationals [.exact (ofRat 2), .exact (ofRat 1)] = [2, 1] by decide +kernel,
      List.mem_pair, List.mem_pair, or_comm]
  have hbits : ∀ q ∈ ([1, 2] : List Rat), q.num.natAbs < 2 ^ 26 ∧ q.den < 2 ^ 26 := by
    decide +kernel
  have hsorted : ([1, 2] : List Rat).Pairwise (· < ·) := by decide +kernel
  refine ⟨hpolynomial, _, hanswers, List.Pairwise.eq_of_mem_iff ?_ hsorted hmem⟩
  exact hshort.imp_of_mem fun hq hr h =>
    h (hbits _ ((hmem _).1 hq)) (hbits _ ((hmem _).1 hr))

/-- The roots of `-(x - 1) (x - 1 - 2⁻⁶⁰)` have one double, and the larger one is found first. -/
theorem roots_closeRoots :
    (Quadratic.ofRats (-1) (2305843009213693953 / 1152921504606846976)
      (-1152921504606846977 / 1152921504606846976)).roots {} =
      [.exact (ofRat (1152921504606846977 / 1152921504606846976)), .exact (ofRat 1)] := by
  with_unfolding_all rfl

/-- **Doubles do not tell all numbers apart.**  Roots with one double are listed as they are found,
and the larger one may be found first. -/
theorem exists_rationals_not_increasing :
    ∃ (f : Form) (qs : List Rat) (answers : List Answer),
      f.IsPolynomial 0 qs ∧ qs.length = 3 ∧
      f.polynomialRoots? {} 0 = some
        { degree := 2, answers := answers ++ [.exact (ofRat (discriminantOf qs))] } ∧
      Answer.rationals answers = [1152921504606846977 / 1152921504606846976, 1] ∧
      ¬ (Answer.rationals answers).Pairwise (· < ·) := by
  have hne : (-1 : Rat) ≠ 0 := by decide
  have hroots := polynomialRoots?_secondDegree
    (b := 2305843009213693953 / 1152921504606846976)
    (c := -1152921504606846977 / 1152921504606846976) hne {}
  have hlisted : Answer.listed {}
      [.exact (ofRat (1152921504606846977 / 1152921504606846976)), .exact (ofRat 1)] =
      [.exact (ofRat (1152921504606846977 / 1152921504606846976)), .exact (ofRat 1)] := by
    refine Answer.listed_of_pairwise (List.pairwise_pair.2 ?_) (List.pairwise_pair.2 ?_)
    · decide +kernel
    · decide +kernel
  rw [roots_closeRoots, hlisted] at hroots
  have hrationals : Answer.rationals
      [.exact (ofRat (1152921504606846977 / 1152921504606846976)), .exact (ofRat 1)] =
      [1152921504606846977 / 1152921504606846976, 1] := by
    decide +kernel
  refine ⟨_, _, _, isPolynomial_secondDegree hne, rfl, hroots, hrationals, ?_⟩
  rw [hrationals]
  decide +kernel

end Form

end Resolvent

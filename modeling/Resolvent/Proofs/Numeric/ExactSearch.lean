import Mathlib.Algebra.Order.Field.Basic
import Mathlib.Algebra.Order.Field.Rat
import Mathlib.Tactic.FieldSimp
import Mathlib.Tactic.Linarith
import Mathlib.Tactic.NormNum
import Mathlib.Tactic.Ring
import Resolvent.Numeric.RootSearch

/-!
# The search for roots with exact numbers

Over an ordered field with exact arithmetic, and for any function, however discontinuous it is and
wherever it is undefined, the scan of an interval ends and lists its roots in order
(`RootSearch.scan_exact`).

All that is used of a root is the test that it passes before it is accepted: it lies behind the point
where its search begins, by a fixed part of the step (`RootSearch.lt_of_nextRoot?`).  Comparisons with
an undefined number fail, so whatever the refinements compute, an accepted root is a number.  Hence
successive roots increase, and only so many of them lie before the interval.

The loops of the search run on a bounded supply of steps.  `Samples n` and `Skips n` say that they
end by themselves after `n` rounds; since the samples are equally spaced and the step is at least a
hundredth of the interval, about a thousand rounds are enough.
-/

namespace Resolvent

/-- The numbers that a search takes for the accuracy of its arithmetic and for the golden section. -/
class SearchConstants (K : Type) where
  /-- The relative distance of neighbouring numbers. -/
  epsilon : K
  /-- A length below which no interval is refined. -/
  tiny : K
  /-- The ratio of the golden section. -/
  golden : K

variable {K : Type} [Field K] [LinearOrder K] [SearchConstants K]

/-- The numbers of an ordered field with exact arithmetic, and an undefined one. -/
instance Continuum.exact : Continuum (Option K) where
  add := Option.map₂ (· + ·)
  sub := Option.map₂ (· - ·)
  mul := Option.map₂ (· * ·)
  div x y := x.bind fun a => y.bind fun b => if b = 0 then none else some (a / b)
  neg := Option.map (- ·)
  abs := Option.map (|·|)
  lt x y := (Option.map₂ (fun a b => decide (a < b)) x y).getD false
  le x y := (Option.map₂ (fun a b => decide (a ≤ b)) x y).getD false
  eq x y := (Option.map₂ (fun a b => decide (a = b)) x y).getD false
  isUndefined := Option.isNone
  isFinite := Option.isSome
  isNegative x := x.any fun a => decide (a < 0)
  ofNat n := some n
  decimal m k := some (m / 10 ^ k)
  epsilon := some SearchConstants.epsilon
  tiny := some SearchConstants.tiny
  golden := some SearchConstants.golden

namespace Continuum

variable {a b : K} {y : Option K}

@[simp] theorem add_some : add (some a) (some b) = some (a + b) := rfl

@[simp] theorem sub_some : sub (some a) (some b) = some (a - b) := rfl

@[simp] theorem mul_some : mul (some a) (some b) = some (a * b) := rfl

@[simp] theorem lt_some : lt (some a) (some b) = decide (a < b) := rfl

@[simp] theorem le_some : le (some a) (some b) = decide (a ≤ b) := rfl

@[simp] theorem isFinite_some : isFinite (some a) = true := rfl

@[simp] theorem ofNat_exact (n : Nat) : (ofNat n : Option K) = some (n : K) := rfl

@[simp] theorem decimal_exact (m k : Nat) : (decimal m k : Option K) = some (m / 10 ^ k : K) := rfl

theorem div_some (hb : b ≠ 0) : div (some a) (some b) = some (a / b) := if_neg hb

/-- What is compared with success is a number. -/
theorem lt_some_left_iff : lt (some a) y = true ↔ ∃ b, y = some b ∧ a < b := by
  cases y <;> simp [lt]

end Continuum

namespace RootSearch

open Continuum

/-! ### Loops that end by themselves -/

section Loops

variable {α : Type} [Continuum α] {f : α → α} {start stop step maximalStep bound x0 f0 point : α}
  {n index fuel : Nat} {previous : Option (α × α)} {result : Option α}

/-- The root that is recognised between a sample and the next one, if it is accepted. -/
def foundBehind? (f : α → α) (start step : α) (index : Nat) (previous : Option (α × α))
    (x0 f0 : α) : Option α :=
  let x1 := add start (mul (ofNat (index + 1)) step)
  (rootBetween? f step previous x0 f0 x1 (f x1)).filter fun root =>
    lt (add start (mul step (decimal 1 4))) root

/-- From a sample on, sampling takes `n` rounds and ends with the result. -/
inductive Samples (f : α → α) (start stop step : α) :
    (n index : Nat) → Option (α × α) → (x0 f0 : α) → Option α → Prop
  | past {index : Nat} {previous : Option (α × α)} {x0 f0 : α} (h : le x0 stop = false) :
    Samples f start stop step 0 index previous x0 f0 none
  | found {index : Nat} {previous : Option (α × α)} {x0 f0 root : α} (h : le x0 stop = true)
    (hroot : foundBehind? f start step index previous x0 f0 = some root) :
    Samples f start stop step 1 index previous x0 f0 (some root)
  | next {n index : Nat} {previous : Option (α × α)} {x0 f0 x1 : α} {result : Option α}
    (h : le x0 stop = true) (hroot : foundBehind? f start step index previous x0 f0 = none)
    (hx1 : x1 = add start (mul (ofNat (index + 1)) step))
    (hnext : Samples f start stop step n (index + 1) (some (x0, f0)) x1 (f x1) result) :
    Samples f start stop step (n + 1) index previous x0 f0 result

/-- The search behind a point skips `n` roots before the bound and ends with the result. -/
inductive Skips (f : α → α) (stop maximalStep bound : α) : Nat → α → Option α → Prop
  | past {point : α} (h : successor? f stop maximalStep point = none) :
    Skips f stop maximalStep bound 0 point none
  | found {point root : α} (h : successor? f stop maximalStep point = some root)
    (hroot : lt root bound = false) : Skips f stop maximalStep bound 0 point (some root)
  | skip {n : Nat} {point root : α} {result : Option α}
    (h : successor? f stop maximalStep point = some root) (hroot : lt root bound = true)
    (hnext : Skips f stop maximalStep bound n root result) :
    Skips f stop maximalStep bound (n + 1) point result

/-- The points behind which roots are searched for, one after the other. -/
inductive Cursor (f : α → α) (stop maximalStep start : α) : α → Prop
  | start : Cursor f stop maximalStep start start
  | next {point root : α} (h : Cursor f stop maximalStep start point)
    (hroot : successor? f stop maximalStep point = some root) : Cursor f stop maximalStep start root

theorem sampleLoop_succ : sampleLoop f start stop step (fuel + 1) index previous x0 f0 =
    if le x0 stop = true then
      match foundBehind? f start step index previous x0 f0 with
      | some root => some root
      | none =>
        let x1 := add start (mul (ofNat (index + 1)) step)
        sampleLoop f start stop step fuel (index + 1) (some (x0, f0)) x1 (f x1)
    else none := rfl

/-- Where sampling ends by itself, more steps than it takes make no difference. -/
theorem Samples.sampleLoop_eq (h : Samples f start stop step n index previous x0 f0 result)
    (hfuel : n ≤ fuel) : sampleLoop f start stop step fuel index previous x0 f0 = result := by
  induction h generalizing fuel with
  | past h =>
    cases fuel with
    | zero => rfl
    | succ fuel => rw [sampleLoop_succ, h, if_neg Bool.false_ne_true]
  | found h hroot =>
    obtain ⟨fuel, rfl⟩ := Nat.exists_eq_add_of_le' hfuel
    rw [sampleLoop_succ, if_pos h, hroot]
  | next h hroot hx1 _ ih =>
    obtain ⟨fuel, rfl⟩ := Nat.exists_eq_add_of_le' (Nat.le_of_add_left_le hfuel)
    subst hx1
    rw [sampleLoop_succ, if_pos h, hroot]
    exact ih (by omega)

theorem Skips.firstFrom?_eq (h : Skips f stop maximalStep bound n point result) (hfuel : n < fuel) :
    firstFrom? f stop maximalStep bound fuel point = result := by
  induction h generalizing fuel with
  | past h =>
    obtain ⟨fuel, rfl⟩ := Nat.exists_eq_add_of_le' hfuel
    rw [firstFrom?, h]
  | found h hroot =>
    obtain ⟨fuel, rfl⟩ := Nat.exists_eq_add_of_le' hfuel
    rw [firstFrom?, h]
    dsimp only
    rw [hroot, if_neg Bool.false_ne_true]
  | skip h hroot _ ih =>
    obtain ⟨fuel, rfl⟩ := Nat.exists_eq_add_of_le' (Nat.zero_lt_of_lt hfuel)
    rw [firstFrom?, h]
    dsimp only
    rw [if_pos hroot]
    exact ih (by omega)

/-- A root that sampling finds has been accepted. -/
theorem lt_of_sampleLoop {root : α}
    (h : sampleLoop f start stop step fuel index previous x0 f0 = some root) :
    lt (add start (mul step (decimal 1 4))) root = true := by
  induction fuel generalizing index previous x0 f0 with
  | zero => cases h
  | succ fuel ih =>
    rw [sampleLoop_succ] at h
    split at h
    · split at h
      · next hfound =>
        cases h
        exact (Option.filter_eq_some_iff.1 hfound).2
      · exact ih h
    · cases h

end Loops

/-! ### Roots are numbers, and apart -/

variable [IsStrictOrderedRing K] {f : Option K → Option K} {s t d x y bound : K} {root : Option K}

omit [IsStrictOrderedRing K] in
theorem larger_some (a b : K) : larger (some a) (some b) = some (max a b) := by
  change (if lt (some a) (some b) = true then some b else some a) = some (max a b)
  simp only [lt_some, decide_eq_true_eq]
  split
  · next h => rw [max_eq_right h.le]
  · next h => rw [max_eq_left (not_lt.1 h)]

theorem defaultStep_some (lo hi : K) :
    defaultStep (some lo) (some hi) = some (max ((hi - lo) / 100) (1 / 1000)) := by
  have hne : ((100 : ℕ) : K) ≠ 0 := by norm_num
  rw [defaultStep, minimalStep, sub_some, ofNat_exact, div_some hne, decimal_exact, larger_some]
  norm_num

theorem mul_zeroPrecision : mul (some d) zeroPrecision = some (d / 10000000) := by
  rw [zeroPrecision, decimal_exact, mul_some]
  congr 1
  norm_num
  ring

theorem nextRoot?_some (hd : 0 < d) : nextRoot? f (some s) (some t) (some d) =
    sampleLoop f (some s) (some t) (some (d / 10)) maxSamples 0 none (some s) (f (some s)) := by
  have hpos : lt zero (some d) = true := by
    rw [zero, ofNat_exact, lt_some, Nat.cast_zero]
    exact decide_eq_true hd
  have hne : ((10 : ℕ) : K) ≠ 0 := by norm_num
  rw [nextRoot?, hpos, isFinite_some, isFinite_some, ofNat_exact, div_some hne]
  norm_num

/-- A root is a number, and lies behind the point where its search begins. -/
theorem lt_of_nextRoot? (hd : 0 < d) (h : nextRoot? f (some s) (some t) (some d) = some root) :
    ∃ y, root = some y ∧ s + d / 100000 < y := by
  rw [nextRoot?_some hd] at h
  have hlt := lt_of_sampleLoop h
  rw [decimal_exact, mul_some, add_some, lt_some_left_iff] at hlt
  obtain ⟨y, rfl, hy⟩ := hlt
  refine ⟨y, rfl, ?_⟩
  have hsep : d / 10 * ((1 : ℕ) / 10 ^ 4 : K) = d / 100000 := by norm_num; ring
  rwa [hsep] at hy

theorem successor?_eq_some_iff : successor? f (some t) (some d) (some s) = some root ↔
    nextRoot? f (some s) (some t) (some d) = some root ∧
      lt (some (t + d / 10000000)) root = false := by
  rw [successor?, Option.filter_eq_some_iff, mul_zeroPrecision, add_some, Bool.not_eq_true']

/-- A root of the interval lies behind the last one, and not far behind the interval. -/
theorem of_successor? (hd : 0 < d) (h : successor? f (some t) (some d) (some s) = some root) :
    ∃ y, root = some y ∧ s + d / 100000 < y ∧ y ≤ t + d / 10000000 := by
  obtain ⟨hnext, hstop⟩ := successor?_eq_some_iff.1 h
  obtain ⟨y, rfl, hy⟩ := lt_of_nextRoot? hd hnext
  rw [lt_some, decide_eq_false_iff_not, not_lt] at hstop
  exact ⟨y, rfl, hy, hstop⟩

theorem exists_successor?_iff (hd : 0 < d) :
    (successor? f (some t) (some d) (some s)).isSome = true ↔
      ∃ y, nextRoot? f (some s) (some t) (some d) = some (some y) ∧ y ≤ t + d / 10000000 := by
  rw [Option.isSome_iff_exists]
  constructor
  · rintro ⟨root, h⟩
    obtain ⟨y, rfl, -, hstop⟩ := of_successor? hd h
    exact ⟨y, (successor?_eq_some_iff.1 h).1, hstop⟩
  · rintro ⟨y, h, hstop⟩
    exact ⟨some y, successor?_eq_some_iff.2 ⟨h, by simpa using hstop⟩⟩

/-- The roots behind a number are numbers, each one the first behind the last, and they break off
before there are so many only where there is no other. -/
theorem rootsFrom_some (hd : 0 < d) (count : Nat) (s : K) :
    ∃ xs : List K, rootsFrom f (some t) (some d) count (some s) = xs.map some ∧
      (s :: xs).IsChain (fun x y => successor? f (some t) (some d) (some x) = some (some y)) ∧
      (∀ x ∈ xs, x ≤ t + d / 10000000) ∧
      (xs.length < count → ∀ x ∈ (s :: xs).getLast?,
        successor? f (some t) (some d) (some x) = none) := by
  induction count generalizing s with
  | zero => exact ⟨[], rfl, .singleton s, by simp, by simp⟩
  | succ count ih =>
    rw [rootsFrom]
    cases h : successor? f (some t) (some d) (some s) with
    | none => exact ⟨[], rfl, .singleton s, by simp, by simpa using h⟩
    | some root =>
      obtain ⟨y, rfl, -, hstop⟩ := of_successor? hd h
      obtain ⟨xs, hxs, hchain, hle, hcomplete⟩ := ih y
      refine ⟨y :: xs, by simp [hxs], .cons_cons h hchain, ?_, fun hlength => ?_⟩
      · simpa using ⟨hstop, hle⟩
      · rw [List.getLast?_cons_cons]
        exact hcomplete (Nat.lt_of_succ_lt_succ hlength)

/-! ### Both loops end -/

omit [IsStrictOrderedRing K] in
/-- Equally spaced samples pass the end of the interval. -/
theorem exists_samples {N : Nat} (hN : t < s + N * d) {index k : Nat} (hindex : index + k = N)
    (previous : Option (Option K × Option K)) (f0 : Option K) :
    ∃ n ≤ k, ∃ result, Samples f (some s) (some t) (some d) n index previous
      (some (s + index * d)) f0 result := by
  induction k generalizing index previous f0 with
  | zero =>
    obtain rfl : index = N := hindex
    exact ⟨0, le_rfl, none, .past (by simpa using hN)⟩
  | succ k ih =>
    by_cases hpast : le (some (s + index * d)) (some t) = true
    · cases hroot : foundBehind? f (some s) (some d) index previous (some (s + index * d)) f0 with
      | some root => exact ⟨1, by omega, some root, .found hpast hroot⟩
      | none =>
        have hx1 : some (s + ((index + 1 : ℕ) : K) * d) =
            add (some s) (mul (ofNat (index + 1)) (some d)) := by
          rw [ofNat_exact, mul_some, add_some]
        have hindex : index + 1 + k = N := by omega
        obtain ⟨n, hn, result, h⟩ := ih hindex (some (some (s + index * d), f0))
          (f (some (s + ((index + 1 : ℕ) : K) * d)))
        exact ⟨n + 1, by omega, result, .next hpast hroot hx1 h⟩
    · exact ⟨0, by omega, none, .past (by simpa using hpast)⟩

/-- Each search for the next root ends by itself. -/
theorem samples_nextRoot? (hd : 0 < d) {N : Nat} (hN : t < s + N * (d / 10))
    (hmax : N ≤ maxSamples) :
    ∃ n ≤ N, Samples f (some s) (some t) (some (d / 10)) n 0 none (some s) (f (some s))
      (nextRoot? f (some s) (some t) (some d)) := by
  obtain ⟨n, hn, result, h⟩ := exists_samples (f := f) hN (Nat.zero_add N) none (f (some s))
  rw [Nat.cast_zero, zero_mul, add_zero] at h
  rw [nextRoot?_some hd, h.sampleLoop_eq (hn.trans hmax)]
  exact ⟨n, hn, h⟩

/-- Only so many roots that are apart lie before the bound. -/
theorem exists_skips (hd : 0 < d) {m : Nat} (h : bound ≤ s + m * (d / 100000)) :
    ∃ n ≤ m, ∃ result, Skips f (some t) (some d) (some bound) n (some s) result := by
  induction m generalizing s with
  | zero =>
    cases hroot : successor? f (some t) (some d) (some s) with
    | none => exact ⟨0, le_rfl, none, .past hroot⟩
    | some root =>
      obtain ⟨y, rfl, hy, -⟩ := of_successor? hd hroot
      have hbound : bound ≤ y := by
        have : 0 < d / 100000 := by positivity
        rw [Nat.cast_zero, zero_mul, add_zero] at h
        linarith
      exact ⟨0, le_rfl, some (some y), .found hroot (by simpa using hbound)⟩
  | succ m ih =>
    cases hroot : successor? f (some t) (some d) (some s) with
    | none => exact ⟨0, by omega, none, .past hroot⟩
    | some root =>
      obtain ⟨y, rfl, hy, -⟩ := of_successor? hd hroot
      by_cases hbound : y < bound
      · have hrest : bound ≤ y + m * (d / 100000) := by
          push_cast at h
          linarith
        obtain ⟨n, hn, result, hskips⟩ := ih hrest
        exact ⟨n + 1, by omega, result, .skip hroot (by simpa using hbound) hskips⟩
      · exact ⟨0, by omega, some (some y), .found hroot (by simpa using hbound)⟩

/-- What is searched for from a number is a number between the bound and the end. -/
theorem of_skips (hd : 0 < d) {n : Nat}
    (h : Skips f (some t) (some d) (some bound) n (some s) (some root)) :
    ∃ y, root = some y ∧ bound ≤ y ∧ y ≤ t + d / 10000000 := by
  induction n generalizing s with
  | zero =>
    cases h with
    | found h hroot =>
      obtain ⟨y, rfl, -, hstop⟩ := of_successor? hd h
      exact ⟨y, rfl, by simpa using hroot, hstop⟩
  | succ n ih =>
    cases h with
    | skip h _ hnext =>
      obtain ⟨y, rfl, -, -⟩ := of_successor? hd h
      exact ih hnext

/-- The points where searches begin do not lie before the first one. -/
theorem Cursor.exists_ge (hd : 0 < d) {point : Option K}
    (h : Cursor f (some t) (some d) (some s) point) : ∃ x, point = some x ∧ s ≤ x := by
  induction h with
  | start => exact ⟨s, rfl, le_rfl⟩
  | next _ hroot ih =>
    obtain ⟨x, rfl, hx⟩ := ih
    obtain ⟨y, rfl, hy, -⟩ := of_successor? hd hroot
    have : 0 < d / 100000 := by positivity
    exact ⟨y, rfl, by linarith⟩

/-! ### The scan of an interval -/

/-- The step of the search between two numbers. -/
def exactStep (lo hi : K) : K := max ((hi - lo) / 100) (1 / 1000)

/-- The first root that a scan reports. -/
def firstOf? (f : Option K → Option K) (lo hi : K) : Option (Option K) :=
  firstFrom? f (some hi) (some (exactStep lo hi)) (some (lo - exactStep lo hi / 10000000)) maxSamples
    (some (lo - exactStep lo hi))

/-- What a scan between two numbers reports: roots that the search finds one after the other, in
order and apart, in the interval up to a margin, as many as there are but no more than the capacity,
and whether the search finds one more. -/
structure Reports (f : Option K → Option K) (lo hi : K) (capacity : Nat) (xs : List K)
    (more : Bool) : Prop where
  head_eq : firstOf? f lo hi = xs.head?.map some
  successive : xs.IsChain fun x y =>
    successor? f (some hi) (some (exactStep lo hi)) (some x) = some (some y)
  complete : xs.length < capacity → ∀ x ∈ xs.getLast?,
    successor? f (some hi) (some (exactStep lo hi)) (some x) = none
  increasing : xs.Pairwise (· < ·)
  apart : xs.IsChain fun x y => x + exactStep lo hi / 100000 < y
  inside : ∀ x ∈ xs, lo - exactStep lo hi / 10000000 ≤ x ∧ x ≤ hi + exactStep lo hi / 10000000
  length_le : xs.length ≤ capacity
  more_iff : more = true ↔ xs.length = capacity ∧ ∃ x ∈ xs.getLast?, ∃ y,
    nextRoot? f (some x) (some hi) (some (exactStep lo hi)) = some (some y) ∧
      y ≤ hi + exactStep lo hi / 10000000

omit [SearchConstants K] in
theorem exactStep_pos (lo hi : K) : 0 < exactStep lo hi :=
  lt_max_of_lt_right (by norm_num)

omit [SearchConstants K] in
/-- The step is at least a hundredth of the interval. -/
theorem sub_le_exactStep (lo hi : K) : hi - lo ≤ 100 * exactStep lo hi := by
  have h : (hi - lo) / 100 ≤ exactStep lo hi := le_max_left _ _
  linarith

/-- Successive roots are apart. -/
theorem apart_of_successive (hd : 0 < d) {xs : List K}
    (h : xs.IsChain fun x y => successor? f (some t) (some d) (some x) = some (some y)) :
    xs.IsChain fun x y => x + d / 100000 < y := by
  refine h.imp fun x y hxy => ?_
  obtain ⟨z, hz, hlt, -⟩ := of_successor? hd hxy
  cases hz
  exact hlt

omit [SearchConstants K] in
theorem pairwise_of_apart (hd : 0 < d) {xs : List K}
    (h : xs.IsChain fun x y => x + d / 100000 < y) : xs.Pairwise (· < ·) := by
  have hpos : 0 < d / 100000 := by positivity
  exact (h.imp fun x y hxy => by linarith).pairwise

/-- The search for the first root ends by itself: only so many roots lie before the interval. -/
theorem skips_firstOf? (f : Option K → Option K) (lo hi : K) :
    ∃ n ≤ 100000, Skips f (some hi) (some (exactStep lo hi))
      (some (lo - exactStep lo hi / 10000000)) n (some (lo - exactStep lo hi))
      (firstOf? f lo hi) := by
  have hd := exactStep_pos lo hi
  have hbound : lo - exactStep lo hi / 10000000 ≤
      lo - exactStep lo hi + (100000 : ℕ) * (exactStep lo hi / 100000) := by
    push_cast
    linarith
  obtain ⟨n, hn, result, h⟩ := exists_skips (f := f) (t := hi) hd hbound
  have hfuel : n < maxSamples := hn.trans_lt (by decide)
  exact ⟨n, hn, by rwa [firstOf?, h.firstFrom?_eq hfuel]⟩

/-- Wherever a scan searches for the next root, it takes about a thousand samples at most. -/
theorem samples_of_cursor {lo hi : K} {point : Option K}
    (h : Cursor f (some hi) (some (exactStep lo hi)) (some (lo - exactStep lo hi)) point) :
    ∃ n ≤ 1100, Samples f point (some hi) (some (exactStep lo hi / 10)) n 0 none point (f point)
      (nextRoot? f point (some hi) (some (exactStep lo hi))) := by
  have hd := exactStep_pos lo hi
  obtain ⟨x, rfl, hx⟩ := h.exists_ge hd
  have hN : hi < x + (1100 : ℕ) * (exactStep lo hi / 10) := by
    have hle := sub_le_exactStep lo hi
    push_cast
    linarith
  exact samples_nextRoot? hd hN (by decide)

theorem scan_succ (f : Option K → Option K) (lo hi : K) (count : Nat) :
    scan f (some lo) (some hi) (count + 1) =
      match firstOf? f lo hi with
      | none => ⟨[], false⟩
      | some first =>
        let roots := first :: rootsFrom f (some hi) (some (exactStep lo hi)) count first
        ⟨roots, roots.length == count + 1 &&
          (successor? f (some hi) (some (exactStep lo hi)) (roots.getLast?.getD first)).isSome⟩ := by
  rw [scan, defaultStep_some, ← exactStep, mul_zeroPrecision, sub_some, sub_some, ← firstOf?]
  cases firstOf? f lo hi <;> rfl

/-- The first root and the roots behind it are as a scan reports them. -/
theorem reports_cons {lo hi y : K} {xs : List K} {count : Nat}
    (hfirst : firstOf? f lo hi = some (some y))
    (hlo : lo - exactStep lo hi / 10000000 ≤ y) (hhi : y ≤ hi + exactStep lo hi / 10000000)
    (hchain : (y :: xs).IsChain fun x y =>
      successor? f (some hi) (some (exactStep lo hi)) (some x) = some (some y))
    (hle : ∀ x ∈ xs, x ≤ hi + exactStep lo hi / 10000000) (hlength : xs.length ≤ count)
    (hcomplete : xs.length < count → ∀ x ∈ (y :: xs).getLast?,
      successor? f (some hi) (some (exactStep lo hi)) (some x) = none) :
    Reports f lo hi (count + 1) (y :: xs) (xs.length + 1 == count + 1 &&
      (successor? f (some hi) (some (exactStep lo hi))
        (some ((y :: xs).getLast (List.cons_ne_nil y xs)))).isSome) := by
  have hd := exactStep_pos lo hi
  have hapart := apart_of_successive hd hchain
  have hincreasing := pairwise_of_apart hd hapart
  refine ⟨hfirst, hchain, fun h => hcomplete (Nat.lt_of_succ_lt_succ h), hincreasing, hapart, ?_,
    Nat.succ_le_succ hlength, ?_⟩
  · refine List.forall_mem_cons.2 ⟨⟨hlo, hhi⟩, fun x hx => ⟨?_, hle x hx⟩⟩
    exact hlo.trans (List.rel_of_pairwise_cons hincreasing hx).le
  · rw [Bool.and_eq_true, beq_iff_eq, exists_successor?_iff hd, List.length_cons,
      List.getLast?_eq_getLast_of_ne_nil (List.cons_ne_nil y xs)]
    simp

theorem exists_reports (f : Option K → Option K) (lo hi : K) (count : Nat) :
    ∃ xs : List K, (scan f (some lo) (some hi) (count + 1)).roots = xs.map some ∧
      Reports f lo hi (count + 1) xs (scan f (some lo) (some hi) (count + 1)).hasMore := by
  have hd := exactStep_pos lo hi
  obtain ⟨n, -, h⟩ := skips_firstOf? f lo hi
  rw [scan_succ]
  cases hfirst : firstOf? f lo hi with
  | none => exact ⟨[], rfl, hfirst, .nil, by simp, .nil, .nil, by simp, Nat.zero_le _, by simp⟩
  | some first =>
    rw [hfirst] at h
    obtain ⟨y, rfl, hlo, hhi⟩ := of_skips hd h
    obtain ⟨xs, hxs, hchain, hle, hcomplete⟩ := rootsFrom_some (f := f) (t := hi) hd count y
    have hlength := length_rootsFrom_le f (some hi) (some (exactStep lo hi)) count (some y)
    rw [hxs, List.length_map] at hlength
    have hlast : ((some y :: xs.map some).getLast?).getD (some y) =
        some ((y :: xs).getLast (List.cons_ne_nil y xs)) := by
      rw [← List.map_cons, List.getLast?_map,
        List.getLast?_eq_getLast_of_ne_nil (List.cons_ne_nil y xs)]
      rfl
    refine ⟨y :: xs, by rw [List.map_cons, ← hxs], ?_⟩
    dsimp only
    rw [hxs, hlast, List.length_cons, List.length_map]
    exact reports_cons hfirst hlo hhi hchain hle hlength hcomplete

/-- Whatever the function, the scan of an interval ends by itself, and its roots are numbers of the
interval in increasing order, as many as the search finds one after the other, up to the capacity. -/
theorem scan_exact (f : Option K → Option K) (lo hi : K) {capacity : Nat}
    (hcapacity : 1 ≤ capacity) :
    (∃ xs : List K, (scan f (some lo) (some hi) capacity).roots = xs.map some ∧
      Reports f lo hi capacity xs (scan f (some lo) (some hi) capacity).hasMore) ∧
    (∃ n ≤ 100000, Skips f (some hi) (some (exactStep lo hi))
      (some (lo - exactStep lo hi / 10000000)) n (some (lo - exactStep lo hi))
      (firstOf? f lo hi)) ∧
    ∀ point, Cursor f (some hi) (some (exactStep lo hi)) (some (lo - exactStep lo hi)) point →
      ∃ n ≤ 1100, Samples f point (some hi) (some (exactStep lo hi / 10)) n 0 none point (f point)
        (nextRoot? f point (some hi) (some (exactStep lo hi))) := by
  obtain ⟨count, rfl⟩ := Nat.exists_eq_add_of_le' hcapacity
  exact ⟨exists_reports f lo hi count, skips_firstOf? f lo hi, fun _ => samples_of_cursor⟩

instance : SearchConstants ℚ := ⟨1 / 2 ^ 52, 1 / 2 ^ 511, 618 / 1000⟩

/-- A parabola that is undefined before its first root. -/
def halfParabola (x : Option ℚ) : Option ℚ :=
  x.bind fun x => if x < 3 / 2 then none else some ((x - 3 / 2) * (x - 7))

theorem scan_exact_halfParabola : 1 ≤ 1 ∧
    (scan halfParabola (some 0) (some 10) 1).roots = [some (3 / 2)] ∧
    Reports halfParabola 0 10 1 [3 / 2] true ∧
    ∃ n ≤ 1100, Samples halfParabola (some (0 - exactStep 0 10)) (some 10)
      (some (exactStep 0 10 / 10)) n 0 none (some (0 - exactStep 0 10))
      (halfParabola (some (0 - exactStep 0 10))) (some (some (3 / 2))) := by
  obtain ⟨⟨xs, hxs, hreports⟩, -, hsamples⟩ := scan_exact halfParabola 0 10 (le_refl 1)
  have hroots : (scan halfParabola (some 0) (some 10) 1).roots = [3 / 2].map some := by
    decide +kernel
  have hmore : (scan halfParabola (some 0) (some 10) 1).hasMore = true := by decide +kernel
  have hnext : nextRoot? halfParabola (some (0 - exactStep 0 10)) (some 10)
      (some (exactStep 0 10)) = some (some (3 / 2)) := by decide +kernel
  obtain rfl : xs = [3 / 2] :=
    List.map_injective_iff.2 (Option.some_injective ℚ) (hxs.symm.trans hroots)
  refine ⟨le_refl 1, hroots, hmore ▸ hreports, ?_⟩
  have h := hsamples _ .start
  rwa [hnext] at h

end RootSearch

end Resolvent

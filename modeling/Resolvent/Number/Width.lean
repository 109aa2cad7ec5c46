/-!
# Machine integers

The ranges of the signed integers of 32, 64 and 128 bits and of the unsigned ones of 128 bits.
Whole numbers are unbounded in this library; these tests say where a value has to fit a word.
`clamp32` is the nearest value that does, `wrap64` the value that agrees in its last 64 bits, and
`negate32` the opposite within the range of 32 bits.
-/

namespace Resolvent.Width

/-- The value fits a signed word of 32 bits. -/
def isInt32 (n : Int) : Bool := decide (-2147483648 ≤ n ∧ n ≤ 2147483647)

/-- The value fits a signed word of 64 bits. -/
def isInt64 (n : Int) : Bool := decide (-9223372036854775808 ≤ n ∧ n ≤ 9223372036854775807)

/-- The value fits a signed word of 128 bits. -/
def isInt128 (n : Int) : Bool :=
  decide (-170141183460469231731687303715884105728 ≤ n ∧
    n ≤ 170141183460469231731687303715884105727)

/-- The value fits an unsigned word of 128 bits. -/
def isNat128 (n : Nat) : Bool := decide (n ≤ 340282366920938463463374607431768211455)

/-- The nearest value that fits a signed word of 32 bits. -/
def clamp32 (n : Int) : Int :=
  if n < -2147483648 then -2147483648 else if 2147483647 < n then 2147483647 else n

/-- The opposite of a signed word of 32 bits, as such a word. -/
def negate32 (n : Int) : Int := Int.bmod (-n) 4294967296

/-- The signed word of 64 bits that a whole number ends in. -/
def wrap64 (n : Int) : Int := Int.bmod n 18446744073709551616

theorem isInt64_iff {n : Int} :
    isInt64 n = true ↔ -9223372036854775808 ≤ n ∧ n ≤ 9223372036854775807 := by
  simp [isInt64]

theorem isInt128_iff {n : Int} :
    isInt128 n = true ↔ -170141183460469231731687303715884105728 ≤ n ∧
      n ≤ 170141183460469231731687303715884105727 := by
  simp [isInt128]

theorem clamp32_of_mem {n : Int} (h : -2147483648 ≤ n) (h' : n ≤ 2147483647) : clamp32 n = n := by
  unfold clamp32
  split
  · omega
  · split <;> omega

theorem negate32_of_mem {n : Int} (h : -2147483648 < n) (h' : n ≤ 2147483647) :
    negate32 n = -n := by
  unfold negate32
  rw [Int.bmod_eq_of_le] <;> omega

theorem wrap64_of_isInt64 {n : Int} (h : isInt64 n = true) : wrap64 n = n := by
  rw [isInt64_iff] at h
  unfold wrap64
  rw [Int.bmod_eq_of_le] <;> omega

end Resolvent.Width

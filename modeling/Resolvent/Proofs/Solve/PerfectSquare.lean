import Resolvent.Proofs.Form.PerfectRoots
import Resolvent.Proofs.Form.Rebuilding
import Resolvent.Proofs.Solve.RationalEquation

/-!
# Quadratic equations with rational roots

The discriminant of a quadratic polynomial with rational roots is the square of a rational number,
so its root is rational where extraction finds perfect squares, and the answers are the two roots
(`Quadratic.roots_ofRoots`).  Beyond 128 bits extraction leaves every number as it is, and the root
of a perfect power stays a root (`Form.exists_root_pow_ne`).
-/

namespace Resolvent

open Form
open PerfectPower (Extractable estimate scaledRoot)

/-- The quadratic polynomial with a leading coefficient and two roots. -/
def Quadratic.ofRoots (a x y : Rat) : Quadratic := ofRats a (-(a * (x + y))) (a * (x * y))

/-- The roots of a polynomial with rational roots are the answers, in the order in which the
quadratic formula gives them. -/
theorem Quadratic.roots_ofRoots {p : Preferences} {a x y : Rat} (ha : a ≠ 0) (hxy : 0 ≤ a * (y - x))
    (h : Extractable estimate (scaledRoot (a * (y - x)) 2) 2) :
    (ofRoots a x y).roots p =
      if x = y then [.exact (ofRat x)] else [.exact (ofRat x), .exact (ofRat y)] := by
  have ha2 : a * 2 ≠ 0 := mul_ne_zero ha two_ne_zero
  have hdiscrim : discrim a (-(a * (x + y))) (a * (x * y)) = (a * (y - x)) ^ 2 := by
    rw [discrim]
    ring
  rw [ofRoots, roots_ofRats ha, rootsWith, discriminant_ofRats, hdiscrim, isZero_ofRat]
  dsimp only [ofRats]
  rw [neg_ofRat]
  by_cases heq : x = y
  · rw [if_pos (by simp [heq]), if_pos heq, mul_ofRat]
    congr 3
    rw [heq]
    field_simp
    ring
  · have hne : a * (y - x) ≠ 0 := mul_ne_zero ha (sub_ne_zero.2 (Ne.symm heq))
    rw [if_neg (by simpa using hne), if_neg heq, root_pow hxy le_rfl (by decide) h]
    dsimp only
    rw [sub_ofRat, add_ofRat, mul_ofRat, mul_ofRat]
    congr 3
    · field_simp
      ring
    · congr 2
      field_simp
      ring

/-- **Roots of perfect powers**: the root of `q ^ n` is `q`, in every format, and quadratic
equations whose discriminant is `q ^ 2` have their rational roots for answers, where the power of
the scaled root fits 128 bits and the root of the part of it that trial division leaves is next to
its estimate. -/
theorem Form.root_pow_rational {p : Preferences} {q : Rat} {n : Nat} (hq : 0 ≤ q) (hn : 2 ≤ n)
    (hn' : n ≤ 64) (h : Extractable estimate (scaledRoot q n) n) :
    root p (ofRat (q ^ n)) n = .ok (ofRat q) ∧
      ∀ a x y : Rat, n = 2 → a ≠ 0 → a * (y - x) = q → (Quadratic.ofRoots a x y).roots p =
        if x = y then [.exact (ofRat x)] else [.exact (ofRat x), .exact (ofRat y)] := by
  refine ⟨root_pow hq hn hn' h, ?_⟩
  rintro a x y rfl ha rfl
  exact Quadratic.roots_ofRoots ha hq h

/-- The square root of 9/4 is 3/2, and `x² - x/2 - 1/2` has the roots -1/2 and 1. -/
theorem Form.root_nine_quarters :
    root {} (ofRat ((3 / 2) ^ 2)) 2 = .ok (ofRat (3 / 2)) ∧
      (Quadratic.ofRoots 1 (-1 / 2) 1).roots {} = [.exact (ofRat (-1 / 2)), .exact (ofRat 1)] := by
  have hscaled : scaledRoot (3 / 2) 2 = 6 := by with_unfolding_all rfl
  have hfound : Extractable estimate (scaledRoot (3 / 2) 2) 2 := by
    rw [hscaled]
    exact PerfectPower.extractable_of_lt _ (by decide) (by decide) (by decide)
  obtain ⟨hroot, hroots⟩ :=
    root_pow_rational (p := {}) (by norm_num) le_rfl (by decide) hfound
  refine ⟨hroot, ?_⟩
  rw [hroots 1 (-1 / 2) 1 rfl one_ne_zero (by norm_num), if_neg (by norm_num)]

/-- The square root of a square beyond 128 bits stays a root. -/
theorem Form.exists_root_pow_ne : ∃ (p : Preferences) (q : Rat) (n : Nat), 0 ≤ q ∧ 2 ≤ n ∧ n ≤ 64 ∧
    root p (ofRat (q ^ n)) n ≠ .ok (ofRat q) := by
  refine ⟨{}, 2 ^ 64, 2, by norm_num, le_rfl, by decide, ?_⟩
  have hsame : PerfectPower.extract (2 ^ 128) 2 = (1, 2 ^ 128) := by
    rw [PerfectPower.extract, PerfectPower.extractWith, if_pos]
    exact .inr (.inr (.inr (by decide)))
  have hnormal : (Atom.root (2 ^ 128) 2).IsNormal :=
    .root (by norm_num) (by norm_num) le_rfl (by decide) hsame
  have hreduced : Monomial.Reduced ⟨[(.root (2 ^ 128) 2, 1)]⟩ :=
    Monomial.reduced_singleton rfl ⟨by norm_num, hsame, le_rfl⟩
  rw [← pow_mul, root_ofRat_of_normal hnormal (by decide), ofAtom_of_reduced hreduced]
  intro h
  have hrat := congrArg toRat? (Except.ok.inj h)
  rw [toRat?_ofRat] at hrat
  exact absurd hrat (by simp [ofTerm, toRat?, Monomial.isOne])

end Resolvent

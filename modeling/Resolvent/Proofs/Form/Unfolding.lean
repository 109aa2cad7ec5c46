import Resolvent.Proofs.Form.Normalization
import Resolvent.Proofs.Form.NormalForm

/-!
# Unfolding products into normal forms

Normalising a product of atoms multiplies out powers of radicands and of sums in reciprocals, which
are products of atoms again.  This module shows that enough unfoldings end in a normal form.

What is unfolded with exponents that are not negative is nested less deep than the factor that it
comes from, so a product settles after as many unfoldings as its unstable factors are deep
(`Form.settledAt`).  A negative power of a radical makes an inverse, which may hold a reciprocal that
is one deeper, but no radical to a negative power; so one more unfolding is enough for any product
(`Form.over_normalize`) and for inverses (`Form.exists_inverseWith`).
-/

namespace Resolvent

/-- The atom is normal, or a root of a positive number. -/
def Atom.Proper : Atom → Prop
  | .root q n => 0 < q ∧ 2 ≤ n ∧ n ≤ 64
  | a => a.IsNormal

theorem Atom.IsNormal.proper {a : Atom} (h : a.IsNormal) : a.Proper := by
  cases a with
  | root q n =>
    cases h with
    | root hq hone hlow hhigh => exact ⟨hq, hlow, hhigh⟩
  | _ => exact h

namespace Form

/-! ### The factors that stay -/

/-- The power that an unstable factor gives rise to exists. -/
def HasPower (power : Form → Int → Option Form) : Atom × Int → Prop
  | (.radical f n, k) => (power f (k / n)).isSome
  | (.reciprocal f, k) => (power f (-k)).isSome
  | _ => True

/-- The factors that stay have exponents that fit, and nothing more is multiplied out of them. -/
structure Kept (x : Atom × Int) : Prop where
  /-- The exponent fits. -/
  exponent : Monomial.ExponentFits x
  /-- The atom is normal. -/
  normal : x.1.IsNormal
  /-- The factor is stable. -/
  stable : Stable x

theorem clamp32_ne_zero {k : Int} (h : k ≠ 0) : Width.clamp32 k ≠ 0 := by
  unfold Width.clamp32
  split
  · omega
  · split <;> omega

theorem kept_radical {f : Form} {n : Nat} {k : Int} (h : (Atom.radical f n).IsNormal) (hk : 0 < k)
    (hkn : k < n) : Kept (.radical f n, Width.clamp32 k) := by
  have hn : n ≤ 64 := by
    cases h with
    | radical hf hne hlow hhigh => exact hhigh
  have hclamp : Width.clamp32 k = k := Width.clamp32_of_mem (by omega) (by omega)
  rw [hclamp]
  exact ⟨⟨hk, hkn⟩, h, Int.ediv_eq_zero_of_lt hk.le hkn⟩

theorem kept_of_mem_radicalShare {power : Form → Int → Option Form} {f : Form} {n : Nat} {k : Int}
    (hne : k ≠ 0) (hradical : (Atom.radical f n).IsNormal)
    (h : Stable (.radical f n, k) ∨ HasPower power (.radical f n, k)) :
    ∀ y ∈ (radicalShare power f n k).kept, Kept y := by
  intro y hy
  have hn : 0 < n := by
    cases hradical with
    | radical hf hne hlow hhigh => omega
  rw [radicalShare] at hy
  split at hy
  · dsimp only at hy
    split at hy
    · cases hy
    · next hrest =>
      rw [List.mem_singleton.1 hy]
      have hnonneg := Int.emod_nonneg k (by omega : (n : Int) ≠ 0)
      exact kept_radical hradical (by omega) (Int.emod_lt_of_pos k (by omega))
  · next hnone =>
    rw [List.mem_singleton.1 hy]
    -- the power would exist, were anything to be multiplied out
    have hstable : k / (n : Int) = 0 := h.resolve_right (by simp [HasPower, hnone])
    have hlt := Int.lt_ediv_add_one_mul_self k (by omega : (0 : Int) < n)
    have hle := Int.ediv_mul_le k (by omega : (n : Int) ≠ 0)
    rw [hstable] at hlt hle
    exact kept_radical hradical (by omega) (by omega)

theorem kept_of_mem_reciprocalShare {power : Form → Int → Option Form} {f : Form} {k : Int}
    (hne : k ≠ 0) (hreciprocal : (Atom.reciprocal f).IsNormal)
    (h : Stable (.reciprocal f, k) ∨ HasPower power (.reciprocal f, k)) :
    ∀ y ∈ (reciprocalShare power f k).kept, Kept y := by
  intro y hy
  -- a large negative exponent stays large when it is clamped
  have hkept : Stable (.reciprocal f, k) → Kept (.reciprocal f, Width.clamp32 k) := by
    refine fun hstable => ⟨clamp32_ne_zero hne, hreciprocal, fun hneg => ?_⟩
    have hlarge : k < 0 → (maxExpandedPower : Int) < -k := hstable
    unfold Width.clamp32 at hneg ⊢
    unfold maxExpandedPower at hlarge ⊢
    split <;> split at hneg <;> omega
  rw [reciprocalShare] at hy
  split at hy
  · split at hy
    · cases hy
    · next hnone =>
      rw [List.mem_singleton.1 hy]
      exact hkept (h.resolve_right (by simp [HasPower, hnone]))
  · next hpos =>
    rw [List.mem_singleton.1 hy]
    exact hkept fun hneg => absurd hneg hpos

theorem kept_of_mem_share {power : Form → Int → Option Form} {x : Atom × Int} (hne : x.2 ≠ 0)
    (hproper : x.1.Proper) (h : Stable x ∨ HasPower power x) :
    ∀ y ∈ (share power x).kept, Kept y := by
  obtain ⟨a, k⟩ := x
  intro y hy
  cases a with
  | imaginaryUnit =>
    simp only [share, unitShare] at hy
    split at hy
    · rw [List.mem_singleton.1 hy]
      exact ⟨rfl, hproper, trivial⟩
    · cases hy
  | root q n => cases hy
  | radical f n => exact kept_of_mem_radicalShare hne hproper h y hy
  | reciprocal f => exact kept_of_mem_reciprocalShare hne hproper h y hy
  | _ =>
    rw [List.mem_singleton.1 hy]
    exact ⟨clamp32_ne_zero hne, hproper, trivial⟩

theorem kept_of_mem_rootShare {factors : List (Atom × Int)}
    (hproper : ∀ x ∈ factors, x.1.Proper) {n : Nat} (hn : n ∈ rootIndices factors) :
    ∀ y ∈ (rootShare factors n).kept, Kept y := by
  intro y hy
  obtain ⟨rfl, hone⟩ := eq_of_mem_kept_rootShare hy
  obtain ⟨q, k, hmem⟩ := mem_rootIndices.1 hn
  have hpos := restProduct_radicandsOf_pos (n := n) fun q k hroot =>
    (hproper (.root q n, k) hroot).1
  refine ⟨rfl, .root ?_ hone (hproper _ hmem).2.1 (hproper _ hmem).2.2 ?_, trivial⟩
  · exact (PerfectPower.extractWith_factorization _ hpos n).2.2
  · exact PerfectPower.extractWith_extractWith _ _ n

theorem pairwise_kept_share (power : Form → Int → Option Form) (x : Atom × Int) :
    (share power x).kept.Pairwise fun y z => y.1 ≠ z.1 := by
  have hsingle : ∀ y : Atom × Int, [y].Pairwise fun y z => y.1 ≠ z.1 :=
    fun y => List.pairwise_singleton _ y
  obtain ⟨a, k⟩ := x
  cases a with
  | imaginaryUnit =>
    simp only [share, unitShare]
    split
    · exact hsingle _
    · exact List.Pairwise.nil
  | root q n => exact List.Pairwise.nil
  | radical f n =>
    simp only [share, radicalShare]
    split
    · dsimp only
      split
      · exact List.Pairwise.nil
      · exact hsingle _
    · exact hsingle _
  | reciprocal f =>
    simp only [share, reciprocalShare]
    split
    · split
      · exact List.Pairwise.nil
      · exact hsingle _
    · exact hsingle _
  | _ => exact hsingle _

/-- No atom stays twice. -/
theorem pairwise_kept (power : Form → Int → Option Form) {factors : List (Atom × Int)}
    (hsorted : Monomial.Sorted factors) :
    ((shares power factors).flatMap Share.kept).Pairwise fun y z => y.1 ≠ z.1 := by
  rw [List.pairwise_flatMap, shares, List.forall_mem_append, List.pairwise_append]
  refine ⟨⟨?_, ?_⟩, ?_, ?_, ?_⟩
  · -- within the share of one factor
    rintro s hs
    obtain ⟨x, -, rfl⟩ := List.mem_map.1 hs
    exact pairwise_kept_share power x
  · -- within the share of one index
    rintro s hs
    obtain ⟨n, -, rfl⟩ := List.mem_map.1 hs
    rw [rootShare_eq]
    dsimp only
    split
    · exact List.Pairwise.nil
    · exact List.pairwise_singleton _ _
  · -- between factors, which are sorted
    refine List.pairwise_map.2 (hsorted.pairwise_ne.imp fun {x y} hne z hz w hw => ?_)
    rw [atom_of_mem_kept_share hz, atom_of_mem_kept_share hw]
    exact hne
  · -- between indices, which are distinct
    refine List.pairwise_map.2 ((nodup_rootIndices factors).imp fun {n m} hne z hz w hw heq => ?_)
    rw [(eq_of_mem_kept_rootShare hz).1, (eq_of_mem_kept_rootShare hw).1] at heq
    exact hne (Atom.root.inj heq).2
  · -- between a factor and an index: a factor that is a root keeps nothing
    intro s hs r hr z hz w hw heq
    obtain ⟨x, -, rfl⟩ := List.mem_map.1 hs
    obtain ⟨n, -, rfl⟩ := List.mem_map.1 hr
    rw [atom_of_mem_kept_share hz, (eq_of_mem_kept_rootShare hw).1] at heq
    obtain ⟨a, k⟩ := x
    dsimp only at heq
    subst heq
    cases hz

/-- A root that stays is the one that is made of the roots with its index. -/
theorem mem_rootShare_of_mem_kept {power : Form → Int → Option Form} {factors : List (Atom × Int)}
    {q : Rat} {n : Nat} {k : Int}
    (h : (Atom.root q n, k) ∈ (shares power factors).flatMap Share.kept) :
    (.root q n, k) ∈ (rootShare factors n).kept := by
  rcases exists_of_mem_kept h with ⟨⟨a, l⟩, -, hx⟩ | ⟨m, -, hx⟩
  · have hatom := atom_of_mem_kept_share hx
    dsimp only at hatom
    subst hatom
    cases hx
  · have hroot := (Prod.mk.inj (eq_of_mem_kept_rootShare hx).1).1
    obtain ⟨-, rfl⟩ := Atom.root.inj hroot
    exact hx

theorem root_of_mem_kept {power : Form → Int → Option Form} {factors : List (Atom × Int)} {q : Rat}
    {n : Nat} {k : Int} (h : (Atom.root q n, k) ∈ (shares power factors).flatMap Share.kept) :
    q = (PerfectPower.extract (restProduct n (radicandsOf n factors)) n).2 :=
  have hroot := (Prod.mk.inj (eq_of_mem_kept_rootShare (mem_rootShare_of_mem_kept h)).1).1
  (Atom.root.inj hroot).1

/-- The monomial of the factors that stay is normal, and nothing more is multiplied out of it. -/
theorem normal_kept (power : Form → Int → Option Form) {factors : List (Atom × Int)} {d : Nat}
    (hproper : ∀ x ∈ factors, x.1.Proper) (hdepth : ∀ x ∈ factors, x.1.depth ≤ d)
    (hsorted : Monomial.Sorted factors) (hne : ∀ x ∈ factors, x.2 ≠ 0)
    (hpower : ∀ x ∈ factors, Stable x ∨ HasPower power x) :
    (⟨Monomial.collectFactors ((shares power factors).flatMap Share.kept)⟩ : Monomial).Normal d ∧
      ∀ x ∈ Monomial.collectFactors ((shares power factors).flatMap Share.kept), Stable x := by
  have hmem : ∀ x ∈ Monomial.collectFactors ((shares power factors).flatMap Share.kept),
      x ∈ (shares power factors).flatMap Share.kept := fun x hx =>
    ((Monomial.mem_collectFactors_of_pairwise (pairwise_kept power hsorted)).1 hx).2
  have hkept : ∀ x ∈ (shares power factors).flatMap Share.kept, Kept x ∧ x.1.depth ≤ d := by
    intro x hx
    refine ⟨?_, forall_kept (P := fun a => a.depth ≤ d) (fun _ _ => Nat.zero_le d) hdepth x hx⟩
    rcases exists_of_mem_kept hx with ⟨y, hy, hx⟩ | ⟨n, hn, hx⟩
    · exact kept_of_mem_share (hne y hy) (hproper y hy) (hpower y hy) x hx
    · exact kept_of_mem_rootShare hproper hn x hx
  refine ⟨⟨⟨Monomial.sorted_collectFactors _, fun x hx => (hkept x (hmem x hx)).1.exponent,
    fun hq hr => ?_⟩, fun x hx => (hkept x (hmem x hx)).1.normal,
    fun x hx => (hkept x (hmem x hx)).2⟩, fun x hx => (hkept x (hmem x hx)).1.stable⟩
  rw [root_of_mem_kept (hmem _ hq), root_of_mem_kept (hmem _ hr)]

/-! ### Products that can be unfolded -/

/-- The atoms of a product are proper and nested at most `d` deep, and the whole powers in its
radicals are not below `low` and can be multiplied out. -/
structure Unfoldable (low : Int) (d : Nat) (factors : List (Atom × Int)) : Prop where
  /-- The atoms are proper. -/
  proper : ∀ x ∈ factors, x.1.Proper
  /-- The atoms are nested at most `d` deep. -/
  depth : ∀ x ∈ factors, x.1.depth ≤ d
  /-- The whole powers are in range, once the exponents of each radical are added up. -/
  wholes : ∀ {f : Form} {n : Nat} {k : Int},
    (.radical f n, k) ∈ Monomial.collectFactors factors →
      low ≤ k / n ∧ k / n ≤ maxExpandedPower

/-- The unstable factors of a product are nested at most `n` deep. -/
def SettlesIn (n : Nat) (factors : List (Atom × Int)) : Prop :=
  ∀ x ∈ Monomial.collectFactors factors, Stable x ∨ x.1.depth ≤ n

variable {d e n : Nat} {factors : List (Atom × Int)}

theorem Unfoldable.collected {low : Int} (h : Unfoldable low d factors) :
    ∀ x ∈ Monomial.collectFactors factors, x.1.Proper ∧ x.1.depth ≤ d := fun x hx =>
  have ⟨k, hk⟩ := Monomial.exists_of_mem_collectFactors hx
  ⟨h.proper (x.1, k) hk, h.depth (x.1, k) hk⟩

theorem Unfoldable.settlesIn {low : Int} (h : Unfoldable low d factors) (hdn : d ≤ n) :
    SettlesIn n factors := fun x hx => .inr ((h.collected x hx).2.trans hdn)

/-- The factors that stay of an unfoldable product make up a normal monomial. -/
theorem Unfoldable.normal_kept {low : Int} (h : Unfoldable low d factors)
    (power : Form → Int → Option Form)
    (hpower : ∀ x ∈ Monomial.collectFactors factors, Stable x ∨ HasPower power x) :
    let kept := Monomial.collectFactors
      ((shares power (Monomial.collectFactors factors)).flatMap Share.kept)
    (⟨kept⟩ : Monomial).Normal d ∧ ∀ x ∈ kept, Stable x :=
  Form.normal_kept power (fun x hx => (h.collected x hx).1) (fun x hx => (h.collected x hx).2)
    (Monomial.sorted_collectFactors factors) (fun _ hx => (Monomial.mem_collectFactors.1 hx).1)
    hpower

theorem exponentSum_radical {m : Monomial} (hm : m.Arranged) (f : Form) {n : Nat} (hn : 0 < n) :
    0 ≤ Monomial.exponentSum (.radical f n) m.factors ∧
      Monomial.exponentSum (.radical f n) m.factors < n := by
  by_cases h : ∃ k, (Atom.radical f n, k) ∈ m.factors
  · obtain ⟨k, hk⟩ := h
    have hfits : 0 < k ∧ k < n := hm.exponents _ hk
    have hsum := Monomial.exponentSum_eq_of_mem hm.sorted.pairwise_ne hk
    dsimp only at hsum
    omega
  · have hsum : Monomial.exponentSum (.radical f n) m.factors = 0 :=
      Monomial.exponentSum_eq_zero fun x hx heq => h ⟨x.2, heq ▸ hx⟩
    omega

theorem two_le_of_proper {f : Form} (h : (Atom.radical f n).Proper) : 2 ≤ n := by
  cases h with
  | radical hf hne hlow hhigh => exact hlow

theorem unfoldable_append {m l : Monomial} (hm : m.Normal d) (hl : l.Normal d) :
    Unfoldable 0 d (m.factors ++ l.factors) := by
  have hproper : ∀ x ∈ m.factors ++ l.factors, x.1.Proper := fun x hx =>
    (List.mem_append.1 hx).elim (fun hx => (hm.atoms x hx).proper) fun hx => (hl.atoms x hx).proper
  refine ⟨hproper, fun x hx => (List.mem_append.1 hx).elim (hm.depth x) (hl.depth x),
    fun {f n k} hx => ?_⟩
  obtain ⟨j, hj⟩ := Monomial.exists_of_mem_collectFactors hx
  have hn := two_le_of_proper (hproper _ hj)
  have hsum := (Monomial.mem_collectFactors.1 hx).2
  rw [Monomial.exponentSum_append] at hsum
  have h₁ := exponentSum_radical hm.arranged f (by omega : 0 < n)
  have h₂ := exponentSum_radical hl.arranged f (by omega : 0 < n)
  dsimp only at hsum
  refine ⟨Int.ediv_nonneg (by omega) (by omega), ?_⟩
  -- each of the two exponents is below the index
  have hlt : k / (n : Int) < 2 := Int.ediv_lt_of_lt_mul (by omega) (by omega)
  unfold maxExpandedPower
  omega

theorem exponentSum_scaleExponents (a : Atom) (m : Monomial) (j : Int) :
    Monomial.exponentSum a (m.scaleExponents j) = Monomial.exponentSum a m.factors * j := by
  obtain ⟨factors⟩ := m
  simp only [Monomial.scaleExponents]
  induction factors with
  | nil => simp [Monomial.exponentSum_nil]
  | cons x factors ih =>
    rw [List.map_cons, Monomial.exponentSum_cons, Monomial.exponentSum_cons, ih]
    dsimp only
    split <;> ring

theorem unfoldable_scaleExponents {m : Monomial} (hm : m.Normal d) {low j : Int} (hlow : low ≤ 0)
    (hj : low ≤ j) (hj' : j ≤ maxExpandedPower) : Unfoldable low d (m.scaleExponents j) := by
  have hmem : ∀ x ∈ m.scaleExponents j, ∃ k, (x.1, k) ∈ m.factors := by
    intro x hx
    obtain ⟨y, hy, rfl⟩ := List.mem_map.1 hx
    exact ⟨y.2, hy⟩
  have hproper : ∀ x ∈ m.scaleExponents j, x.1.Proper := fun x hx =>
    have ⟨k, hk⟩ := hmem x hx
    (hm.atoms (x.1, k) hk).proper
  refine ⟨hproper, fun x hx => have ⟨k, hk⟩ := hmem x hx; hm.depth (x.1, k) hk,
    fun {f n k} hx => ?_⟩
  obtain ⟨i, hi⟩ := Monomial.exists_of_mem_collectFactors hx
  have hn := two_le_of_proper (hproper _ hi)
  have hsum := (Monomial.mem_collectFactors.1 hx).2
  rw [exponentSum_scaleExponents] at hsum
  obtain ⟨hnonneg, hlt⟩ := exponentSum_radical hm.arranged f (by omega : 0 < n)
  generalize Monomial.exponentSum (.radical f n) m.factors = s at hsum hnonneg hlt
  dsimp only at hsum
  subst hsum
  have hnpos : (0 : Int) < n := by omega
  constructor
  · rw [Int.le_ediv_iff_mul_le hnpos]
    rcases le_or_gt 0 j with hpos | hneg
    · exact (mul_nonpos_of_nonpos_of_nonneg hlow hnpos.le).trans (mul_nonneg hnonneg hpos)
    · calc low * n ≤ j * n := Int.mul_le_mul_of_nonneg_right hj hnpos.le
        _ ≤ j * s := Int.mul_le_mul_of_nonpos_left hneg.le hlt.le
        _ = s * j := Int.mul_comm j s
  · refine Int.ediv_le_of_le_mul hnpos ?_
    calc s * j ≤ s * maxExpandedPower := Int.mul_le_mul_of_nonneg_left hj' hnonneg
      _ ≤ n * maxExpandedPower := Int.mul_le_mul_of_nonneg_right hlt.le (by omega)
      _ = maxExpandedPower * n := Int.mul_comm _ _

/-! ### Products without negative powers of radicals -/

/-- Products without negative powers of radicals become normal in `n` unfoldings, provided their
unstable factors are at most that deep. -/
def SettledAt (n : Nat) : Prop :=
  ∀ ⦃d : Nat⦄ ⦃factors : List (Atom × Int)⦄, Unfoldable 0 d factors → SettlesIn n factors →
    ∀ c, (normalize n c factors).Over (Monomial.Normal d)

theorem Over.mono {f : Form} (h : f.Over (Monomial.Normal d)) (hde : d ≤ e) :
    f.Over (Monomial.Normal e) := h.imp fun _ hm => hm.mono hde

namespace SettledAt

variable (h : SettledAt n)

include h

theorem mulWith {f g : Form} (hdn : d ≤ n) (hf : f.Over (Monomial.Normal d))
    (hg : g.Over (Monomial.Normal d)) : (mulWith (normalize n) f g).Over (Monomial.Normal d) :=
  over_mulWith hf hg fun s hs t ht _ _ =>
    have happend := unfoldable_append (hf s hs).2 (hg t ht).2
    h happend (happend.settlesIn hdn) _

theorem powNatWith {f : Form} (hdn : d ≤ n) (hf : f.Over (Monomial.Normal d)) {k : Nat}
    (hk : k ≤ maxExpandedPower) : (powNatWith (normalize n) f k).Over (Monomial.Normal d) := by
  refine powNatWith_of_closed (fun _ _ => h.mulWith hdn)
    (over_ofRat (Monomial.normal_one d) 1) hf fun m q hsingle => ?_
  have hm : m.Normal d := (hf (m, q) (by simp [terms_of_singleTerm? hsingle])).2
  have hscale := unfoldable_scaleExponents hm le_rfl (Int.natCast_nonneg k)
    (Int.ofNat_le.2 hk)
  exact h hscale (hscale.settlesIn hdn) _

/-- One more unfolding: what is multiplied out is normal and at most `n` deep, and what stays is
stable. -/
theorem succ {low : Int} (hfactors : Unfoldable low d factors) (hen : e ≤ n) (hed : e ≤ d)
    (hpower : ∀ x ∈ Monomial.collectFactors factors, Stable x ∨ HasPower (powWith (normalize n)) x)
    (hexpanded : ∀ g ∈ (shares (powWith (normalize n))
      (Monomial.collectFactors factors)).flatMap Share.expanded, g.Over (Monomial.Normal e))
    (c : Rat) : (normalize (n + 1) c factors).Over (Monomial.Normal d) := by
  rcases eq_or_ne c 0 with rfl | hc
  · rw [normalize_zero_coefficient]
    exact over_zero _
  · obtain ⟨hkept, hstable⟩ := hfactors.normal_kept _ hpower
    have hproduct := foldl_mulWith_of_closed (fun _ _ => h.mulWith hen) hexpanded
      (over_ofRat (Monomial.normal_one e) 1)
    have hterm : (sharedTerm c (shares (powWith (normalize n))
        (Monomial.collectFactors factors))).Over (Monomial.Normal d) := over_ofTerm hkept _
    rw [normalize, normalizeWith_eq _ _ hc]
    dsimp only
    split
    · exact hterm
    · refine over_mulWith hterm (hproduct.mono hed) fun s hs t ht _ _ => ?_
      have hs' : s.1 = ⟨Monomial.collectFactors ((shares (powWith (normalize n))
          (Monomial.collectFactors factors)).flatMap Share.kept)⟩ := by
        unfold sharedTerm ofTerm at hs
        split at hs
        · cases hs
        · rw [List.mem_singleton.1 hs]
      rw [hs']
      have ht' := (hproduct t ht).2
      refine h (unfoldable_append hkept (ht'.mono hed)) (fun x hx => ?_) _
      -- a factor deeper than `n` comes from the term alone, where it is stable
      by_cases hdepth : x.1.depth ≤ n
      · exact .inr hdepth
      · obtain ⟨hne, hsum⟩ := Monomial.mem_collectFactors.1 hx
        have habsent : Monomial.exponentSum x.1 t.1.factors = 0 :=
          Monomial.exponentSum_eq_zero fun y hy heq =>
            hdepth (heq ▸ (ht'.depth y hy).trans hen)
        rw [Monomial.exponentSum_append, habsent, Int.add_zero] at hsum
        exact .inl (hstable x ((Monomial.mem_iff_exponentSum
          hkept.arranged.sorted.pairwise_ne hne).2 hsum))

end SettledAt

/-- The form in an unstable factor is normal, and nested less deep than the factor. -/
theorem over_radicand {f : Form} (hproper : (Atom.radical f n).Proper)
    (hdepth : (Atom.radical f n).depth ≤ d + 1) : f.Over (Monomial.Normal d) := by
  cases hproper with
  | radical hf => exact hf.over (by rw [Atom.depth] at hdepth; omega)

theorem over_inner {f : Form} (hproper : (Atom.reciprocal f).Proper)
    (hdepth : (Atom.reciprocal f).depth ≤ d + 1) : f.Over (Monomial.Normal d) := by
  cases hproper with
  | reciprocal hf => exact hf.over (by rw [Atom.depth] at hdepth; omega)

/-- Powers that are not negative and not too large exist. -/
theorem powWith_of_nonneg (normalize : Rat → List (Atom × Int) → Form) (f : Form) {k : Int}
    (hk : 0 ≤ k) (hk' : k ≤ maxExpandedPower) :
    powWith normalize f k = some (powNatWith normalize f k.natAbs) := by
  rw [powWith, if_neg (by omega), if_neg (by omega)]

theorem eq_powNatWith_of_nonneg {normalize : Rat → List (Atom × Int) → Form} {f p : Form} {k : Int}
    (hk : 0 ≤ k) (hp : powWith normalize f k = some p) :
    k ≤ maxExpandedPower ∧ p = powNatWith normalize f k.natAbs := by
  have hsmall : ¬ maxExpandedPower < k.natAbs := by
    intro hlarge
    rw [powWith_of_lt _ _ hlarge] at hp
    cases hp
  rw [powWith_of_nonneg _ _ hk (by omega)] at hp
  exact ⟨by omega, (Option.some.inj hp).symm⟩

theorem stable_or_hasPower_reciprocal (normalize : Rat → List (Atom × Int) → Form) (f : Form)
    (k : Int) :
    Stable (.reciprocal f, k) ∨ HasPower (powWith normalize) (.reciprocal f, k) := by
  by_cases hsmall : k < 0 ∧ -k ≤ maxExpandedPower
  · right
    rw [HasPower, powWith_of_nonneg normalize f (by omega) hsmall.2]
    rfl
  · exact .inl fun hneg => not_le.1 fun hle => hsmall ⟨hneg, hle⟩

theorem settledAt_zero : SettledAt 0 := by
  intro d factors hfactors hsettles c
  have hstable : ∀ x ∈ Monomial.collectFactors factors, Stable x := by
    intro x hx
    rcases hsettles x hx with h | h
    · exact h
    · obtain ⟨a, k⟩ := x
      cases a with
      | radical f n => simp [Atom.depth] at h
      | reciprocal f => simp [Atom.depth] at h
      | _ => trivial
  obtain ⟨hkept, -⟩ := hfactors.normal_kept (fun _ _ => none)
    fun x hx => .inl (hstable x hx)
  rcases eq_or_ne c 0 with rfl | hc
  · rw [normalize_zero_coefficient]
    exact over_zero _
  · rw [normalize, normalizeWith_eq _ _ hc]
    dsimp only
    split <;> exact over_ofTerm hkept _

/-- Products without negative powers of radicals settle in as many unfoldings as their unstable
factors are deep. -/
theorem settledAt (n : Nat) : SettledAt n := by
  induction n with
  | zero => exact settledAt_zero
  | succ n ih =>
    intro d factors hfactors hsettles c
    -- whole powers of radicals are in range, so they are multiplied out
    have hwhole : ∀ {f m k}, (.radical f m, k) ∈ Monomial.collectFactors factors →
        powWith (normalize n) f (k / (m : Nat)) =
          some (powNatWith (normalize n) f (k / (m : Nat)).natAbs) :=
      fun hx => powWith_of_nonneg _ _ (hfactors.wholes hx).1 (hfactors.wholes hx).2
    refine ih.succ hfactors (min_le_left n d) (min_le_right n d) (fun x hx => ?_)
      (fun g hg => ?_) c
    · obtain ⟨a, k⟩ := x
      cases a with
      | radical f m =>
        right
        rw [HasPower, hwhole hx]
        rfl
      | reciprocal f => exact stable_or_hasPower_reciprocal _ f k
      | _ => exact .inl trivial
    · rcases exists_of_mem_expanded hg with ⟨f, m, k, hx, hp⟩ | ⟨f, k, hx, hneg, hp⟩
      · obtain ⟨hproper, hdepth⟩ := hfactors.collected _ hx
        rw [hwhole hx] at hp
        obtain rfl := Option.some.inj hp
        obtain ⟨hlow, hhigh⟩ := hfactors.wholes hx
        rcases hsettles _ hx with hstable | hdeep
        · -- a stable radical gives rise to the power zero only
          have hzero : k / (m : Int) = 0 := hstable
          rw [hzero]
          exact over_ofRat (Monomial.normal_one _) 1
        · refine ih.powNatWith (min_le_left n d) (over_radicand hproper ?_) (by omega)
          dsimp only at hdepth hdeep
          omega
      · obtain ⟨hproper, hdepth⟩ := hfactors.collected _ hx
        obtain ⟨hsmall, rfl⟩ := eq_powNatWith_of_nonneg (by omega) hp
        rcases hsettles _ hx with hstable | hdeep
        · have hlarge : (maxExpandedPower : Int) < -k := hstable hneg
          omega
        · refine ih.powNatWith (min_le_left n d) (over_inner hproper ?_) (by omega)
          dsimp only at hdepth hdeep
          omega

/-! ### Inverses and negative powers -/

theorem two_le_length_of_singleTerm? {f : Form} (hzero : f.isZero = false)
    (hsingle : f.singleTerm? = none) : 2 ≤ f.terms.length := by
  obtain ⟨terms⟩ := f
  match terms with
  | [] => cases hzero
  | [t] => cases hsingle
  | _ :: _ :: _ => simp

/-- The sum in the reciprocal of a normal form is one that a reciprocal may have. -/
theorem isNormal_reciprocal {f : Form} (hf : f.IsNormal) (hzero : f.isZero = false)
    (hsingle : f.singleTerm? = none) :
    (Atom.reciprocal (f.scale f.leadingCoefficient⁻¹)).IsNormal := by
  have hlength := two_le_length_of_singleTerm? hzero hsingle
  have hnormal := hf.scale f.leadingCoefficient⁻¹
  have hterms := hf.arranged.terms
  obtain ⟨terms⟩ := f
  cases terms with
  | nil => cases hzero
  | cons t terms =>
    have ht : t.2 ≠ 0 := (hterms t List.mem_cons_self).1
    have hne : leadingCoefficient ⟨t :: terms⟩ ≠ 0 := ht
    refine .reciprocal hnormal ?_ ?_
    · rw [scale, if_neg (inv_ne_zero hne), List.length_map]
      exact hlength
    · rw [scale, if_neg (inv_ne_zero hne)]
      exact Rat.mul_inv_cancel t.2 ht

theorem over_reciprocalOf (n : Nat) {f : Form} (hf : f.IsNormal) (hdepth : f.depth ≤ d)
    (hzero : f.isZero = false) (hsingle : f.singleTerm? = none) :
    (reciprocalOf (normalize n) f).Over (Monomial.Normal (d + 1)) := by
  have hatom := isNormal_reciprocal hf hzero hsingle
  have hscale : (f.scale f.leadingCoefficient⁻¹).depth ≤ d :=
    ((hf.over hdepth).scale _).depth_le
  refine settledAt n ⟨?_, ?_, fun {f n k} hx => ?_⟩ (fun x hx => ?_) _
  · intro x hx
    rw [List.mem_singleton.1 hx]
    exact hatom
  · intro x hx
    rw [List.mem_singleton.1 hx, Atom.depth]
    omega
  · cases Monomial.eq_of_mem_collectFactors_singleton hx
  · rw [Monomial.eq_of_mem_collectFactors_singleton hx]
    exact .inl fun hneg => absurd hneg (by decide)

/-- A normal form other than zero has an inverse, which is normal and at most one deeper. -/
theorem exists_inverseWith_of_over (hn : d + 1 ≤ n)
    (hproduct : ∀ {factors}, Unfoldable (-maxExpandedPower) d factors →
      ∀ c, (normalize n c factors).Over (Monomial.Normal d))
    (budget : Nat) {f : Form} (hf : f.IsNormal) (hdepth : f.depth ≤ d) (hne : f ≠ zero) :
    ∃ g, inverseWith (normalize n) budget f = some g ∧ g.Over (Monomial.Normal (d + 1)) := by
  have hsingle : ∀ {f : Form} {m : Monomial} {q : Rat}, f.IsNormal → f.depth ≤ d →
      f.singleTerm? = some (m, q) →
      (normalize n q⁻¹ (m.scaleExponents (-1))).Over (Monomial.Normal (d + 1)) := by
    intro f m q hf hdepth h
    have hm : m.Normal d := (hf.over hdepth (m, q) (by simp [terms_of_singleTerm? h])).2
    exact (hproduct (unfoldable_scaleExponents hm (by decide) (by decide) (by decide)) _).mono
      (Nat.le_succ d)
  induction budget generalizing f with
  | zero =>
    have hzero : f.isZero = false := Bool.eq_false_iff.2 fun h => hne (isZero_iff.1 h)
    rw [inverseWith, if_neg (Bool.eq_false_iff.1 hzero)]
    split
    · next m q h => exact ⟨_, rfl, hsingle hf hdepth h⟩
    · next h => exact ⟨_, rfl, over_reciprocalOf n hf hdepth hzero h⟩
  | succ budget ih =>
    have hzero : f.isZero = false := Bool.eq_false_iff.2 fun h => hne (isZero_iff.1 h)
    rw [inverseWith, if_neg (Bool.eq_false_iff.1 hzero)]
    split
    · next m q h => exact ⟨_, rfl, hsingle hf hdepth h⟩
    · next h =>
      split
      · exact ⟨_, rfl, over_reciprocalOf n hf hdepth hzero h⟩
      · next c hconj =>
        have hc := (hf.over hdepth).conjugate hconj
        have hden := (settledAt n).mulWith (by omega) (hf.over hdepth) hc
        split
        · next i hi =>
          have hdenNe : mulWith (normalize n) f c ≠ zero := by
            intro hden
            rw [hden, inverseWith_zero] at hi
            cases hi
          obtain ⟨g, hg, hover⟩ := ih (isNormal_of_over (sorted_mulWith (sorted_normalize n) f c)
            hden) hden.depth_le hdenNe
          rw [hg] at hi
          obtain rfl := Option.some.inj hi
          exact ⟨_, rfl, (settledAt n).mulWith hn (hc.mono (Nat.le_succ d)) hover⟩
        · exact ⟨_, rfl, over_reciprocalOf n hf hdepth hzero h⟩

/-- Products settle in one unfolding more than their factors are deep. -/
theorem over_normalize {n d : Nat} (hdn : d + 1 ≤ n) {factors : List (Atom × Int)}
    (hfactors : Unfoldable (-maxExpandedPower) d factors) (c : Rat) :
    (normalize n c factors).Over (Monomial.Normal d) := by
  induction n generalizing d factors c with
  | zero => omega
  | succ n ih =>
    -- powers of what is nested in the factors are at most as deep as the factors
    have hpower : ∀ {f : Form} {m : Nat} {k : Int},
        (.radical f m, k) ∈ Monomial.collectFactors factors →
        ∃ g, powWith (normalize n) f (k / m) = some g ∧ g.Over (Monomial.Normal d) := by
      intro f m k hx
      obtain ⟨hproper, hdepth⟩ := hfactors.collected _ hx
      obtain ⟨hlow, hhigh⟩ := hfactors.wholes hx
      have hradical : (Atom.radical f m).IsNormal := hproper
      cases hradical with
      | radical hf hne =>
        rw [Atom.depth] at hdepth
        obtain ⟨e, rfl⟩ : ∃ e, d = e + 1 := ⟨d - 1, by omega⟩
        rcases lt_or_ge (k / (m : Int)) 0 with hneg | hpos
        · obtain ⟨i, hi, hover⟩ := exists_inverseWith_of_over (d := e) (n := n) (by omega)
            (fun hfactors => ih (by omega) hfactors) maxRationalizations hf (by omega) hne
          refine ⟨_, ?_, (settledAt n).powNatWith (by omega) hover
            (by omega : (k / (m : Int)).natAbs ≤ maxExpandedPower)⟩
          rw [powWith, if_neg (by omega), if_pos hneg, hi]
          rfl
        · refine ⟨_, powWith_of_nonneg _ _ hpos hhigh, ?_⟩
          exact (settledAt n).powNatWith (by omega) ((hf.over (by omega)).mono (Nat.le_succ e))
            (by omega)
    refine (settledAt n).succ hfactors (Nat.le_of_succ_le_succ hdn) le_rfl (fun x hx => ?_)
      (fun g hg => ?_) c
    · obtain ⟨a, k⟩ := x
      cases a with
      | radical f m =>
        obtain ⟨g, hg, -⟩ := hpower hx
        right
        rw [HasPower, hg]
        rfl
      | reciprocal f => exact stable_or_hasPower_reciprocal _ f k
      | _ => exact .inl trivial
    · rcases exists_of_mem_expanded hg with ⟨f, m, k, hx, hp⟩ | ⟨f, k, hx, hneg, hp⟩
      · obtain ⟨g', hg', hover⟩ := hpower hx
        rw [hg'] at hp
        obtain rfl := Option.some.inj hp
        exact hover
      · obtain ⟨hproper, hdepth⟩ := hfactors.collected _ hx
        obtain ⟨hsmall, rfl⟩ := eq_powNatWith_of_nonneg (by omega) hp
        exact (settledAt n).powNatWith (by omega)
          (over_inner hproper (hdepth.trans (Nat.le_succ d))) (by omega)

/-- A normal form other than zero has an inverse, which is normal and at most one deeper. -/
theorem exists_inverseWith {f : Form} (hn : d + 1 ≤ n) (budget : Nat) (hf : f.IsNormal)
    (hdepth : f.depth ≤ d) (hne : f ≠ zero) :
    ∃ g, inverseWith (normalize n) budget f = some g ∧ g.Over (Monomial.Normal (d + 1)) :=
  exists_inverseWith_of_over hn (fun hfactors => over_normalize hn hfactors) budget hf hdepth hne

end Form

end Resolvent

import Resolvent.Proofs.Form.Monomials
import Resolvent.Proofs.Form.Unfolding

/-!
# The number of unfoldings

Normalising a product of atoms unfolds powers of radicands and of sums in reciprocals, a number of
times in a row at most.  This module shows that the number does not matter, once it is large enough
for the depth of the atoms (`Form.normalize_eq_of_depth`), so that the product of two forms is the
sum of the normalised products of their terms, each by itself (`Form.mul_eq_mulWith`).

What decides is the level of an atom (`Atom.level`), which is twice its depth, less one for a
reciprocal.  What is unfolded from a radical or a reciprocal has a lower level, though an inverse of
a radicand may hold a reciprocal of what was in it, and normalising never raises a level
(`Form.keepsLevel_normalize`).  A radical that stays is not unfolded again, unless its exponent was
beyond 32 bits and has been clamped (`Form.unmoved_or_of_mem_kept`), which costs one unfolding more.
-/

namespace Resolvent

/-! ### Levels -/

/-- Twice the depth of an atom, less one for a reciprocal. -/
def Atom.level : Atom → Nat
  | .reciprocal f => 2 * f.depth + 1
  | a => 2 * a.depth

theorem Atom.level_le (a : Atom) : a.level ≤ 2 * a.depth := by
  cases a with
  | reciprocal f =>
    rw [Atom.level, Atom.depth]
    omega
  | _ => exact le_rfl

theorem Atom.depth_le_of_level_le {a : Atom} {d : Nat} (h : a.level ≤ 2 * d) : a.depth ≤ d := by
  cases a with
  | reciprocal f =>
    rw [Atom.level] at h
    rw [Atom.depth]
    omega
  | _ =>
    rw [Atom.level] at h
    · omega
    · intro f hf
      cases hf

/-- The atoms of the monomial have a level at most. -/
def Monomial.LevelAtMost (L : Nat) (m : Monomial) : Prop := ∀ x ∈ m.factors, x.1.level ≤ L

namespace Form

/-- The atoms of the form have a level at most. -/
def LevelAtMost (L : Nat) (f : Form) : Prop := f.MonomialsIn (Monomial.LevelAtMost L)

variable {L d n : Nat} {f g : Form} {c : Rat} {factors : List (Atom × Int)} {x : Atom × Int}

theorem LevelAtMost.mono {L' : Nat} (h : f.LevelAtMost L) (hle : L ≤ L') : f.LevelAtMost L' :=
  fun t ht x hx => (h t ht x hx).trans hle

theorem levelAtMost_of_depth (h : f.depth ≤ d) : f.LevelAtMost (2 * d) := fun t ht x hx =>
  x.1.level_le.trans (Nat.mul_le_mul_left 2 (depth_le_iff.1 h t ht x hx))

theorem LevelAtMost.depth_le (h : f.LevelAtMost (2 * d)) : f.depth ≤ d :=
  depth_le_iff.2 fun t ht x hx => Atom.depth_le_of_level_le (h t ht x hx)

theorem levelAtMost_one (L : Nat) : one.LevelAtMost L := monomialsIn_ofRat nofun 1

/-- Normalising does not raise the level of atoms. -/
def KeepsLevel (normalize : Rat → List (Atom × Int) → Form) : Prop :=
  ∀ L c factors, (∀ x ∈ factors, x.1.level ≤ L) → (normalize c factors).LevelAtMost L

section KeepsLevel

variable {normalize : Rat → List (Atom × Int) → Form} (hn : KeepsLevel normalize)

include hn

theorem LevelAtMost.mulWith (hf : f.LevelAtMost L) (hg : g.LevelAtMost L) :
    (mulWith normalize f g).LevelAtMost L := by
  refine monomialsIn_sumAll fun h hh => ?_
  obtain ⟨s, hs, hh⟩ := List.mem_flatMap.1 hh
  obtain ⟨t, ht, rfl⟩ := List.mem_map.1 hh
  unfold mulTermWith
  dsimp only
  split
  · exact monomialsIn_ofTerm (hf s hs) _
  · split
    · exact monomialsIn_ofTerm (hg t ht) _
    · exact hn L _ _ fun x hx => (List.mem_append.1 hx).elim (hf s hs x) (hg t ht x)

theorem LevelAtMost.normalize_scaleExponents (hf : f.LevelAtMost L) {m : Monomial} {q : Rat}
    (hm : f.singleTerm? = some (m, q)) (c : Rat) (k : Int) :
    (normalize c (m.scaleExponents k)).LevelAtMost L := by
  refine hn L _ _ fun x hx => ?_
  obtain ⟨y, hy, rfl⟩ := List.mem_map.1 hx
  exact hf (m, q) (by simp [terms_of_singleTerm? hm]) y hy

theorem LevelAtMost.powNatWith (hf : f.LevelAtMost L) (n : Nat) :
    (powNatWith normalize f n).LevelAtMost L :=
  powNatWith_of_closed (fun _ _ => LevelAtMost.mulWith hn) (levelAtMost_one L) hf
    fun _ _ hm => hf.normalize_scaleExponents hn hm _ _

theorem LevelAtMost.reciprocalOf (hf : f.LevelAtMost (2 * d)) :
    (reciprocalOf normalize f).LevelAtMost (2 * d + 1) := by
  refine hn _ _ _ fun x hx => ?_
  have hdepth : (f.scale f.leadingCoefficient⁻¹).depth ≤ d :=
    LevelAtMost.depth_le (MonomialsIn.scale hf _)
  rw [List.mem_singleton.1 hx, Atom.level]
  omega

theorem LevelAtMost.inverseWith (hf : f.LevelAtMost (2 * d)) {budget : Nat}
    (hg : inverseWith normalize budget f = some g) : g.LevelAtMost (2 * d + 1) :=
  inverseWith_of_closed (C := LevelAtMost (2 * d)) (D := LevelAtMost (2 * d + 1))
    (fun _ _ => LevelAtMost.mulWith hn) (fun _ _ => LevelAtMost.mulWith hn)
    (fun _ hf => hf.mono (Nat.le_succ _)) (fun _ _ => MonomialsIn.conjugate)
    (fun _ _ _ hf hm => (hf.normalize_scaleExponents hn hm _ _).mono (Nat.le_succ _))
    (fun _ hf => hf.reciprocalOf hn) hf hg

theorem LevelAtMost.foldl_mulWith (hf : f.LevelAtMost L) {gs : List Form}
    (hgs : ∀ g ∈ gs, g.LevelAtMost L) : (gs.foldl (Form.mulWith normalize) f).LevelAtMost L :=
  foldl_mulWith_of_closed (fun _ _ => LevelAtMost.mulWith hn) hgs hf

/-- What is unfolded has a lower level. -/
theorem levelAtMost_of_mem_expanded (h : ∀ x ∈ factors, x.1.level ≤ L + 1)
    (hg : g ∈ (shares (powWith normalize) factors).flatMap Share.expanded) : g.LevelAtMost L := by
  rcases exists_of_mem_expanded hg with ⟨f, n, k, hx, hp⟩ | ⟨f, k, hx, hneg, hp⟩
  · have hlevel : 2 * (f.depth + 1) ≤ L + 1 := h _ hx
    rw [powWith] at hp
    split at hp
    · cases hp
    · split at hp
      · obtain ⟨i, hi, rfl⟩ := Option.map_eq_some_iff.1 hp
        exact (((levelAtMost_of_depth le_rfl).inverseWith hn hi).mono (by omega)).powNatWith hn _
      · cases hp
        exact ((levelAtMost_of_depth le_rfl).mono (by omega)).powNatWith hn _
  · have hlevel : 2 * f.depth + 1 ≤ L + 1 := h _ hx
    obtain ⟨-, rfl⟩ := eq_powNatWith_of_nonneg (by omega) hp
    exact ((levelAtMost_of_depth le_rfl).mono (by omega)).powNatWith hn _

end KeepsLevel

/-- The atoms that stay are atoms of the product, or roots. -/
theorem level_le_of_mem_kept {power : Form → Int → Option Form} (h : ∀ x ∈ factors, x.1.level ≤ L)
    (hx : x ∈ (shares power factors).flatMap Share.kept) : x.1.level ≤ L :=
  forall_kept (P := fun a => a.level ≤ L) (fun _ _ => Nat.zero_le L) h x hx

theorem level_le_of_mem_collectFactors (h : ∀ x ∈ factors, x.1.level ≤ L)
    (hx : x ∈ Monomial.collectFactors factors) : x.1.level ≤ L :=
  Monomial.forall_collectFactors (P := fun a => a.level ≤ L) h x hx

theorem levelAtMost_sharedTerm (power : Form → Int → Option Form)
    (h : ∀ x ∈ factors, x.1.level ≤ L) (c : Rat) :
    (sharedTerm c (shares power factors)).LevelAtMost L :=
  monomialsIn_ofTerm (fun _ hx => level_le_of_mem_collectFactors
    (fun _ hy => level_le_of_mem_kept h hy) hx) _

/-- Normalising does not raise the level of atoms, whatever it unfolds. -/
theorem keepsLevel_normalize (n : Nat) : KeepsLevel (normalize n) := by
  induction n with
  | zero =>
    intro L c factors h
    rcases eq_or_ne c 0 with rfl | hc
    · rw [normalize_zero_coefficient]
      exact monomialsIn_zero
    · have hterm := levelAtMost_sharedTerm (fun _ _ => none)
        (fun x hx => level_le_of_mem_collectFactors h hx) c
      rw [normalize, normalizeWith_eq _ _ hc]
      dsimp only
      split <;> exact hterm
  | succ n ih =>
    intro L c factors h
    rcases eq_or_ne c 0 with rfl | hc
    · rw [normalize_zero_coefficient]
      exact monomialsIn_zero
    · have hcollected := fun x hx => level_le_of_mem_collectFactors (x := x) h hx
      have hterm := levelAtMost_sharedTerm (powWith (normalize n)) hcollected c
      rw [normalize, normalizeWith_eq _ _ hc]
      dsimp only
      split
      · exact hterm
      · exact hterm.mulWith ih ((levelAtMost_one L).foldl_mulWith ih fun g hg =>
          levelAtMost_of_mem_expanded ih (fun x hx => (hcollected x hx).trans (Nat.le_succ L)) hg)

/-! ### Agreement below a level -/

/-- Two ways to normalise do the same with products of atoms that have a level at most. -/
def AgreeUpTo (L : Nat) (M N : Rat → List (Atom × Int) → Form) : Prop :=
  ∀ c factors, (∀ x ∈ factors, x.1.level ≤ L) → M c factors = N c factors

/-- The product of two forms depends on how the products of their terms are normalised. -/
theorem mulWith_congr {M N : Rat → List (Atom × Int) → Form} (h : ∀ s ∈ f.terms, ∀ t ∈ g.terms,
      M (s.2 * t.2) (s.1.factors ++ t.1.factors) = N (s.2 * t.2) (s.1.factors ++ t.1.factors)) :
    mulWith M f g = mulWith N f g := by
  unfold mulWith
  congr 1
  refine List.flatMap_congr fun s hs => List.map_congr_left fun t ht => ?_
  unfold mulTermWith
  dsimp only
  rw [h s hs t ht]

namespace AgreeUpTo

variable {M N : Rat → List (Atom × Int) → Form} (h : AgreeUpTo L M N) (hM : KeepsLevel M)

include h

theorem mulWith (hf : f.LevelAtMost L) (hg : g.LevelAtMost L) :
    Form.mulWith M f g = Form.mulWith N f g :=
  mulWith_congr fun s hs t ht =>
    h _ _ fun x hx => (List.mem_append.1 hx).elim (hf s hs x) (hg t ht x)

theorem scaleExponents (hf : f.LevelAtMost L) {m : Monomial} {q : Rat}
    (hm : f.singleTerm? = some (m, q)) (c : Rat) (k : Int) :
    M c (m.scaleExponents k) = N c (m.scaleExponents k) := by
  refine h _ _ fun x hx => ?_
  obtain ⟨y, hy, rfl⟩ := List.mem_map.1 hx
  exact hf (m, q) (by simp [terms_of_singleTerm? hm]) y hy

theorem reciprocalOf (hf : f.LevelAtMost (2 * d)) (hd : 2 * d + 1 ≤ L) :
    Form.reciprocalOf M f = Form.reciprocalOf N f := by
  refine h _ _ fun x hx => ?_
  have hdepth : (f.scale f.leadingCoefficient⁻¹).depth ≤ d :=
    LevelAtMost.depth_le (MonomialsIn.scale hf _)
  rw [List.mem_singleton.1 hx, Atom.level]
  omega

include hM

theorem foldl_mulWith (hf : f.LevelAtMost L) {gs : List Form} (hgs : ∀ g ∈ gs, g.LevelAtMost L) :
    gs.foldl (Form.mulWith M) f = gs.foldl (Form.mulWith N) f := by
  induction gs generalizing f with
  | nil => rfl
  | cons g gs ih =>
    have hg := hgs g List.mem_cons_self
    rw [List.foldl_cons, List.foldl_cons, ← h.mulWith hf hg]
    exact ih (hf.mulWith hM hg) fun k hk => hgs k (List.mem_cons_of_mem _ hk)

theorem powLoop {result base : Form} (hresult : result.LevelAtMost L) (hbase : base.LevelAtMost L)
    (n : Nat) : Form.powLoop (Form.mulWith M) result base n =
      Form.powLoop (Form.mulWith N) result base n := by
  induction n using Nat.strongRecOn generalizing result base with
  | ind n ih =>
    have hnext : (if n % 2 = 1 then Form.mulWith M result base else result).LevelAtMost L := by
      split
      · exact hresult.mulWith hM hbase
      · exact hresult
    rw [Form.powLoop, Form.powLoop, ← h.mulWith hresult hbase, ← h.mulWith hbase hbase]
    split
    · rfl
    · dsimp only
      split
      · rfl
      · exact ih (n / 2) (by omega) hnext (hbase.mulWith hM hbase)

theorem powNatWith (hf : f.LevelAtMost L) (n : Nat) :
    Form.powNatWith M f n = Form.powNatWith N f n := by
  unfold Form.powNatWith
  split
  · rfl
  · split
    · next hm => exact h.scaleExponents hf hm _ _
    · exact h.powLoop hM (levelAtMost_one L) hf n

theorem inverseWith (hd : 2 * d + 1 ≤ L) (hf : f.LevelAtMost (2 * d)) (budget : Nat) :
    Form.inverseWith M budget f = Form.inverseWith N budget f := by
  have hle : 2 * d ≤ L := by omega
  induction budget generalizing f with
  | zero =>
    rw [Form.inverseWith, Form.inverseWith, ← h.reciprocalOf hf hd]
    split
    · rfl
    · split
      · next hm => rw [h.scaleExponents (hf.mono hle) hm]
      · rfl
  | succ budget ih =>
    rw [Form.inverseWith, Form.inverseWith, ← h.reciprocalOf hf hd]
    split
    · rfl
    · split
      · next hm => rw [h.scaleExponents (hf.mono hle) hm]
      · split
        · rfl
        · next conj hconj =>
          have hconj : conj.LevelAtMost (2 * d) := MonomialsIn.conjugate hf hconj
          rw [← h.mulWith (hf.mono hle) (hconj.mono hle), ← ih (hf.mulWith hM hconj)]
          split
          · next i hi =>
            have hi := (hf.mulWith hM hconj).inverseWith hM hi
            rw [h.mulWith (hconj.mono hle) (hi.mono hd)]
          · rfl

theorem powWith {k : Int} (hd : if k < 0 then 2 * f.depth + 1 ≤ L else 2 * f.depth ≤ L) :
    Form.powWith M f k = Form.powWith N f k := by
  have hf : f.LevelAtMost (2 * f.depth) := levelAtMost_of_depth le_rfl
  unfold Form.powWith
  split
  · rfl
  · split
    · next hneg =>
      rw [if_pos hneg] at hd
      rw [← h.inverseWith hM hd hf]
      cases hi : Form.inverseWith M maxRationalizations f with
      | none => rfl
      | some i => exact congrArg some (h.powNatWith hM ((hf.inverseWith hM hi).mono hd) _)
    · next hpos =>
      rw [if_neg hpos] at hd
      rw [h.powNatWith hM (hf.mono hd)]

end AgreeUpTo

/-! ### Factors that are not unfolded -/

theorem inverseWith_eq_none_iff {normalize : Rat → List (Atom × Int) → Form} {budget : Nat} :
    inverseWith normalize budget f = none ↔ f.isZero = true := by
  constructor
  · intro h
    by_contra hne
    cases budget with
    | zero =>
      rw [inverseWith, if_neg hne] at h
      split at h <;> cases h
    | succ budget =>
      rw [inverseWith, if_neg hne] at h
      split at h
      · cases h
      · split at h
        · cases h
        · split at h <;> cases h
  · intro h
    rw [isZero_iff.1 h, inverseWith_zero]

/-- Which powers have no expansion does not depend on how products are normalised. -/
theorem powWith_eq_none_iff {normalize : Rat → List (Atom × Int) → Form} {k : Int} :
    powWith normalize f k = none ↔ maxExpandedPower < k.natAbs ∨ k < 0 ∧ f.isZero = true := by
  unfold powWith
  split
  · next h => simp [h]
  · next h =>
    split
    · next hneg => simp [h, hneg, inverseWith_eq_none_iff]
    · next hpos => simp [h, hpos]

/-- Normalisation leaves the factor as it is: nothing but a one is multiplied out of it, and its
exponent fits a word. -/
def Unmoved : Atom × Int → Prop
  | (.radical f n, k) => Width.clamp32 k = k ∧ (k / n = 0 ∨
      maxExpandedPower < (k / n).natAbs ∨ k / n < 0 ∧ f.isZero = true)
  | (.reciprocal _, k) => 0 ≤ k ∨ maxExpandedPower < (-k).natAbs
  | _ => True

theorem Unmoved.share_eq (h : Unmoved x) (M N : Rat → List (Atom × Int) → Form) :
    share (powWith M) x = share (powWith N) x := by
  obtain ⟨a, k⟩ := x
  cases a with
  | radical f n =>
    obtain ⟨-, hzero | hnone⟩ := h
    · simp only [share, radicalShare, hzero, powWith_zero]
    · simp only [share, radicalShare, powWith_eq_none_iff.2 hnone]
  | reciprocal f =>
    simp only [share, reciprocalShare]
    split
    · next hneg =>
      have hnone := h.resolve_left (not_le.2 hneg)
      simp only [powWith_eq_none_iff.2 (.inl hnone)]
    · rfl
  | _ => rfl

theorem Unmoved.eq_one_of_mem_expanded (h : Unmoved x) {normalize : Rat → List (Atom × Int) → Form}
    (hg : g ∈ (share (powWith normalize) x).expanded) : g = one := by
  obtain ⟨a, k⟩ := x
  cases a with
  | radical f n =>
    obtain ⟨-, hzero | hnone⟩ := h
    · simp only [share, radicalShare, hzero, powWith_zero] at hg
      exact List.mem_singleton.1 hg
    · simp only [share, radicalShare, powWith_eq_none_iff.2 hnone] at hg
      cases hg
  | reciprocal f =>
    simp only [share, reciprocalShare] at hg
    split at hg
    · next hneg =>
      have hnone := h.resolve_left (not_le.2 hneg)
      simp only [powWith_eq_none_iff.2 (.inl hnone)] at hg
      cases hg
    · cases hg
  | _ => cases hg

/-- Nothing but ones is multiplied out of factors that stay as they are. -/
theorem eq_one_of_unmoved (normalize : Rat → List (Atom × Int) → Form)
    (h : ∀ x ∈ factors, Unmoved x)
    (hg : g ∈ (shares (powWith normalize) factors).flatMap Share.expanded) : g = one := by
  obtain ⟨x, hx, hg⟩ := exists_share_of_mem_expanded hg
  exact (h x hx).eq_one_of_mem_expanded hg

theorem clamp32_clamp32 (k : Int) : Width.clamp32 (Width.clamp32 k) = Width.clamp32 k := by
  unfold Width.clamp32
  split_ifs <;> omega

/-- What stays of a factor is not moved again, or its exponent was clamped. -/
theorem unmoved_or_of_mem_share {normalize : Rat → List (Atom × Int) → Form} {y : Atom × Int}
    (hx : x ∈ (share (powWith normalize) y).kept) :
    Unmoved x ∨ ¬ Unmoved y ∧ Width.clamp32 y.2 ≠ y.2 ∧ Width.clamp32 x.2 = x.2 := by
  obtain ⟨a, k⟩ := y
  cases a with
  | imaginaryUnit =>
    simp only [share, unitShare] at hx
    split at hx
    · rw [List.mem_singleton.1 hx]
      exact .inl trivial
    · cases hx
  | root q n => cases hx
  | radical f n =>
    simp only [share, radicalShare] at hx
    split at hx
    · next p hp =>
      dsimp only at hx
      split at hx
      · cases hx
      · next hrest =>
        rw [List.mem_singleton.1 hx]
        rcases n.eq_zero_or_pos with rfl | hn
        · -- without an index nothing is divided, so the exponent is that of the factor
          by_cases hclamp : Width.clamp32 k = k
          · exact .inl (by simp [Unmoved, hclamp])
          · refine .inr ⟨fun h => hclamp h.1, hclamp, clamp32_clamp32 _⟩
        · -- the remainder is below the index, and so is what it is clamped to
          have h0 := Int.emod_nonneg k (by omega : (n : Int) ≠ 0)
          have h1 := Int.emod_lt_of_pos k (by omega : (0 : Int) < n)
          refine .inl ⟨clamp32_clamp32 _, .inl (Int.ediv_eq_zero_of_lt ?_ ?_)⟩ <;>
            unfold Width.clamp32 <;> split_ifs <;> omega
    · next hnone =>
      rw [List.mem_singleton.1 hx]
      by_cases hclamp : Width.clamp32 k = k
      · left
        rw [hclamp]
        exact ⟨hclamp, .inr (powWith_eq_none_iff.1 hnone)⟩
      · exact .inr ⟨fun h => hclamp h.1, hclamp, clamp32_clamp32 _⟩
  | reciprocal f =>
    left
    simp only [share, reciprocalShare] at hx
    split at hx
    · next hneg =>
      split at hx
      · cases hx
      · next hnone =>
        -- a large negative exponent stays large when it is clamped
        rw [List.mem_singleton.1 hx]
        have hlarge := (powWith_eq_none_iff.1 hnone).resolve_right (by omega)
        right
        unfold Width.clamp32
        unfold maxExpandedPower at hlarge ⊢
        split_ifs <;> omega
    · rw [List.mem_singleton.1 hx]
      left
      unfold Width.clamp32
      split_ifs <;> omega
  | _ =>
    rw [List.mem_singleton.1 hx]
    exact .inl trivial

theorem unmoved_or_of_mem_kept {normalize : Rat → List (Atom × Int) → Form}
    (hx : x ∈ (shares (powWith normalize) factors).flatMap Share.kept) :
    Unmoved x ∨ Width.clamp32 x.2 = x.2 ∧ ∃ y ∈ factors, y.1 = x.1 ∧ ¬ Unmoved y ∧
      Width.clamp32 y.2 ≠ y.2 := by
  rcases exists_of_mem_kept hx with ⟨y, hy, hx⟩ | ⟨n, -, hx⟩
  · exact (unmoved_or_of_mem_share hx).imp id fun ⟨hmoved, hy', hx'⟩ =>
      ⟨hx', y, hy, (atom_of_mem_kept_share hx).symm, hmoved, hy'⟩
  · rw [(eq_of_mem_kept_rootShare hx).1]
    exact .inl trivial

/-! ### Enough unfoldings -/

/-- The factor needs at most `r` unfoldings after the first: none if it stays as it is, and
otherwise two for a level, one less if its exponent fits a word. -/
def SettlesWithin (r : Nat) (x : Atom × Int) : Prop :=
  Unmoved x ∨ 2 * x.1.level ≤ r ∨ Width.clamp32 x.2 = x.2 ∧ 2 * x.1.level ≤ r + 1

theorem unmoved_of_settlesWithin_zero (h : SettlesWithin 0 x) : Unmoved x := by
  rcases h with h | h
  · exact h
  · have hlevel : x.1.level = 0 := by omega
    obtain ⟨a, k⟩ := x
    cases a with
    | radical f n =>
      have hpos : 2 * (f.depth + 1) = 0 := hlevel
      omega
    | reciprocal f =>
      have hpos : 2 * f.depth + 1 = 0 := hlevel
      omega
    | _ => trivial

theorem SettlesWithin.share_eq {r : Nat} (hx : SettlesWithin (r + 1) x)
    {M N : Rat → List (Atom × Int) → Form} (h : AgreeUpTo (r / 2) M N) (hM : KeepsLevel M) :
    share (powWith M) x = share (powWith N) x := by
  rcases hx with hx | hx
  · exact hx.share_eq M N
  · obtain ⟨a, k⟩ := x
    have hlevel : 2 * a.level ≤ r + 2 := by
      dsimp only at hx
      omega
    cases a with
    | radical f n =>
      have hdepth : 2 * (2 * (f.depth + 1)) ≤ r + 2 := hlevel
      simp only [share, radicalShare]
      rw [h.powWith hM (by split <;> omega)]
    | reciprocal f =>
      have hdepth : 2 * (2 * f.depth + 1) ≤ r + 2 := hlevel
      simp only [share, reciprocalShare]
      split
      · rw [h.powWith hM (by rw [if_neg (by omega)]; omega)]
      · rfl
    | _ => rfl

theorem levelAtMost_of_mem_share {r : Nat} (hx : SettlesWithin (r + 1) x)
    {normalize : Rat → List (Atom × Int) → Form} (hn : KeepsLevel normalize)
    (hg : g ∈ (share (powWith normalize) x).expanded) : g.LevelAtMost (r / 2) := by
  rcases hx with hx | hx
  · rw [hx.eq_one_of_mem_expanded hg]
    exact levelAtMost_one _
  · have hexpanded : g ∈ (shares (powWith normalize) [x]).flatMap Share.expanded :=
      List.mem_flatMap.2 ⟨_, List.mem_append_left _ (List.mem_singleton_self _), hg⟩
    refine levelAtMost_of_mem_expanded hn (fun y hy => ?_) hexpanded
    rw [List.mem_singleton.1 hy]
    omega

theorem normalizeWith_congr {multiply multiply' : Form → Form → Form}
    {power power' : Form → Int → Option Form}
    (hshares : shares power (Monomial.collectFactors factors) =
      shares power' (Monomial.collectFactors factors))
    (hfold : ((shares power (Monomial.collectFactors factors)).flatMap Share.expanded).foldl
        multiply one =
      ((shares power (Monomial.collectFactors factors)).flatMap Share.expanded).foldl
        multiply' one)
    (hmul : (((shares power (Monomial.collectFactors factors)).flatMap Share.expanded).foldl
        multiply one).isOne = false →
      multiply (sharedTerm c (shares power (Monomial.collectFactors factors)))
          (((shares power (Monomial.collectFactors factors)).flatMap Share.expanded).foldl
            multiply one) =
        multiply' (sharedTerm c (shares power (Monomial.collectFactors factors)))
          (((shares power (Monomial.collectFactors factors)).flatMap Share.expanded).foldl
            multiply one)) :
    normalizeWith multiply power c factors = normalizeWith multiply' power' c factors := by
  rcases eq_or_ne c 0 with rfl | hc
  · simp [normalizeWith]
  · rw [normalizeWith_eq _ _ hc, normalizeWith_eq _ _ hc, ← hshares]
    dsimp only
    rw [← hfold]
    split
    · rfl
    · next hone => exact hmul (Bool.eq_false_iff.2 hone)

theorem foldl_mulWith_one (normalize : Rat → List (Atom × Int) → Form) {gs : List Form}
    (h : ∀ g ∈ gs, g = one) : gs.foldl (mulWith normalize) one = one := by
  induction gs with
  | nil => rfl
  | cons g gs ih =>
    have hone : mulWith normalize one one = one := by
      simp [one, ofRat, mulWith, sumAll, sumLoop, mulTermWith, Monomial.isOne, Monomial.one, ofTerm]
    rw [List.foldl_cons, h g List.mem_cons_self, hone]
    exact ih fun k hk => h k (List.mem_cons_of_mem _ hk)

/-- The term that stays of a product has the factors that stay. -/
theorem factors_of_mem_sharedTerm {parts : List Share} {t : Monomial × Rat}
    (ht : t ∈ (sharedTerm c parts).terms) :
    t.1.factors = Monomial.collectFactors (parts.flatMap Share.kept) := by
  unfold sharedTerm ofTerm at ht
  split at ht
  · cases ht
  · rw [List.mem_singleton.1 ht]

/-- The factors that stay need fewer unfoldings, also along with what is multiplied out. -/
theorem settlesWithin_append {r : Nat} {normalize : Rat → List (Atom × Int) → Form}
    (h : ∀ x ∈ Monomial.collectFactors factors, SettlesWithin (r + 1) x) {m l : Monomial}
    (hm : m.factors = Monomial.collectFactors ((shares (powWith normalize)
      (Monomial.collectFactors factors)).flatMap Share.kept)) (hl : l.LevelAtMost (r / 2))
    (hx : x ∈ Monomial.collectFactors (m.factors ++ l.factors)) : SettlesWithin r x := by
  by_cases hlevel : x.1.level ≤ r / 2
  · exact .inr (.inl (by omega))
  · -- an atom of a higher level is not among those multiplied out, so its exponent is unchanged
    obtain ⟨hne, hsum⟩ := Monomial.mem_collectFactors.1 hx
    have habsent : Monomial.exponentSum x.1 l.factors = 0 :=
      Monomial.exponentSum_eq_zero fun y hy heq => hlevel (heq ▸ hl y hy)
    rw [Monomial.exponentSum_append, habsent, Int.add_zero, hm] at hsum
    have hpairwise := pairwise_kept (powWith normalize) (Monomial.sorted_collectFactors factors)
    have hkept := (Monomial.mem_collectFactors_of_pairwise hpairwise).1
      ((Monomial.mem_iff_exponentSum (Monomial.sorted_collectFactors _).pairwise_ne hne).2 hsum)
    rcases unmoved_or_of_mem_kept hkept.2 with hx | ⟨hclamp, y, hy, heq, hmoved, hy'⟩
    · exact .inl hx
    · refine .inr (.inr ⟨hclamp, ?_⟩)
      rcases h y hy with hy | hy | hy
      · exact absurd hy hmoved
      · exact heq ▸ hy
      · exact absurd hy.1 hy'

/-- More unfoldings than a product needs do not change what it is normalised to. -/
theorem normalize_eq_of_settlesWithin {r N : Nat} (hN : r ≤ N)
    (h : ∀ x ∈ Monomial.collectFactors factors, SettlesWithin r x) (c : Rat) :
    normalize (N + 1) c factors = normalize (r + 1) c factors := by
  induction r generalizing N c factors with
  | zero =>
    have hunmoved := fun x hx => unmoved_of_settlesWithin_zero (h x hx)
    have hshares : shares (powWith (normalize N)) (Monomial.collectFactors factors) =
        shares (powWith (normalize 0)) (Monomial.collectFactors factors) :=
      congrArg (· ++ _) (List.map_congr_left fun x hx => (hunmoved x hx).share_eq _ _)
    have hone := fun M => foldl_mulWith_one M fun g hg =>
      eq_one_of_unmoved (normalize N) hunmoved hg
    refine normalizeWith_congr hshares ((hone _).trans (hone _).symm) fun hfalse => ?_
    rw [hone] at hfalse
    cases hfalse
  | succ r ih =>
    obtain ⟨N, rfl⟩ : ∃ N', N = N' + 1 := ⟨N - 1, by omega⟩
    have hkeeps := keepsLevel_normalize (N + 1)
    have hagree : AgreeUpTo (r / 2) (normalize (N + 1)) (normalize (r + 1)) := by
      intro c factors hlevel
      refine ih (by omega) (fun x hx => .inr (.inl ?_)) c
      have := level_le_of_mem_collectFactors hlevel hx
      omega
    have hshares : shares (powWith (normalize (N + 1))) (Monomial.collectFactors factors) =
        shares (powWith (normalize (r + 1))) (Monomial.collectFactors factors) :=
      congrArg (· ++ _) (List.map_congr_left fun x hx => (h x hx).share_eq hagree hkeeps)
    have hexpanded : ∀ g ∈ (shares (powWith (normalize (N + 1)))
        (Monomial.collectFactors factors)).flatMap Share.expanded, g.LevelAtMost (r / 2) := by
      intro g hg
      obtain ⟨x, hx, hg⟩ := exists_share_of_mem_expanded hg
      exact levelAtMost_of_mem_share (h x hx) hkeeps hg
    have hone := levelAtMost_one (r / 2)
    refine normalizeWith_congr hshares (hagree.foldl_mulWith hkeeps hone hexpanded) fun _ => ?_
    -- the term that stays times what is multiplied out
    have hproduct := hone.foldl_mulWith hkeeps hexpanded
    generalize ((shares (powWith (normalize (N + 1)))
      (Monomial.collectFactors factors)).flatMap Share.expanded).foldl
        (mulWith (normalize (N + 1))) one = product at hproduct ⊢
    refine mulWith_congr fun s hs t ht => ih (by omega) (fun x hx => ?_) _
    exact settlesWithin_append h (factors_of_mem_sharedTerm hs) (hproduct t ht) hx

/-- **The number of unfoldings does not matter**, once it is more than four for each level of
nesting. -/
theorem normalize_eq_of_depth {N N' : Nat} (hd : ∀ x ∈ factors, x.1.depth ≤ d) (hN : 4 * d + 1 ≤ N)
    (hN' : 4 * d + 1 ≤ N') (c : Rat) : normalize N c factors = normalize N' c factors := by
  have hsettles : ∀ x ∈ Monomial.collectFactors factors, SettlesWithin (4 * d) x := by
    intro x hx
    obtain ⟨k, hk⟩ := Monomial.exists_of_mem_collectFactors hx
    have hlevel := x.1.level_le
    have hdepth := hd (x.1, k) hk
    dsimp only at hdepth
    exact .inr (.inl (by omega))
  obtain ⟨N, rfl⟩ : ∃ M, N = M + 1 := ⟨N - 1, by omega⟩
  obtain ⟨N', rfl⟩ : ∃ M, N' = M + 1 := ⟨N' - 1, by omega⟩
  rw [normalize_eq_of_settlesWithin (by omega : 4 * d ≤ N) hsettles,
    normalize_eq_of_settlesWithin (by omega : 4 * d ≤ N') hsettles]

/-- Normalising with more unfoldings than needed is normalising the product by itself. -/
theorem normalize_eq_ofFactors (hd : ∀ x ∈ factors, x.1.depth ≤ d) {N : Nat} (hN : 4 * d + 1 ≤ N)
    (c : Rat) : normalize N c factors = ofFactors c factors := by
  have hself := Monomial.depthFactors_le_iff.1 (le_refl (Monomial.depthFactors factors))
  have hle := Monomial.depthFactors_le_iff.2 hd
  exact normalize_eq_of_depth hself (by omega) (by unfold unfoldings; omega) c

/-- **The product of two forms** is the sum of the products of their terms, each normalised by
itself. -/
theorem mul_eq_mulWith (f g : Form) : mul f g = mulWith ofFactors f g := by
  refine mulWith_congr fun s hs t ht => normalize_eq_ofFactors (d := f.depth + g.depth)
    (fun x hx => (List.mem_append.1 hx).elim ?_ ?_) (by unfold unfoldings; omega) _
  · exact depth_le_iff.1 (Nat.le_add_right f.depth g.depth) s hs x
  · exact depth_le_iff.1 (Nat.le_add_left g.depth f.depth) t ht x

end Form

end Resolvent

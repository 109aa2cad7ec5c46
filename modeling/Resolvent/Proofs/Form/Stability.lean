import Resolvent.Proofs.Form.Budget
import Resolvent.Proofs.Form.Monomials
import Resolvent.Proofs.Form.Settled
import Resolvent.Proofs.Form.Stored

/-!
# Normal forms that operations make are settled

A negative power of a reciprocal is multiplied out unless it is beyond the limit, and so are the
whole powers in a power of a radical.  So in the forms that operations make nothing more is to be
multiplied out (`Form.Constructible.throughout_lasting`), except of radicals with an index so large
that clamping an exponent to a word makes its whole powers few enough.  Normalisation multiplies out
what it can as long as it may unfold anything, and a product never runs out of unfoldings, which is
shown along the number of unfoldings that its factors need (`Form.lasting_normalize`).

With that, normalisation leaves the terms of a normal form that operations make alone
(`Form.IsNormal.settled`).
-/

namespace Resolvent

/-- The largest index for which an exponent that is no word of 32 bits has more whole powers in it
than are multiplied out, also when it is clamped to a word. -/
def Form.maxStableIndex : Nat := 2147483647 / (maxExpandedPower + 1)

/-- The factor is not a negative power of a reciprocal that is multiplied out, nor a power of a
radical that whole powers are taken out of, unless its exponent may have been clamped. -/
def Form.Lasting : Atom × Int → Prop
  | (.radical f n, k) => n ≤ maxStableIndex → Unmoved (.radical f n, k)
  | (.reciprocal _, k) => k < 0 → (maxExpandedPower : Int) < -k
  | _ => True

/-- Nothing is to be multiplied out of radicals and reciprocals, in the monomial or its atoms. -/
def Monomial.Lasting (m : Monomial) : Prop :=
  ∀ x ∈ m.factors, Form.Lasting x ∧ x.1.Throughout Form.Lasting

/-- The monomial is lasting, and its atoms have a level at most. -/
structure Monomial.LastingUpTo (L : Nat) (m : Monomial) : Prop where
  /-- The atoms have a level at most. -/
  level : m.LevelAtMost L
  /-- The monomial is lasting. -/
  lasting : m.Lasting

namespace Form

variable {L d : Nat} {f g : Form} {c : Rat} {factors : List (Atom × Int)} {x : Atom × Int}

theorem throughout_lasting_iff : f.Throughout Lasting ↔ f.MonomialsIn Monomial.Lasting :=
  throughout_iff

/-! ### What stays of a product -/

/-- A large quotient stays large when its numerator is clamped, unless the denominator is too
large. -/
theorem lt_natAbs_clamp32_ediv {n : Nat} {k : Int} (hn : n ≤ maxStableIndex)
    (h : maxExpandedPower < (k / n).natAbs) : maxExpandedPower < (Width.clamp32 k / n).natAbs := by
  have hpos : (0 : Int) < n := by
    refine Int.natCast_pos.2 (Nat.pos_of_ne_zero fun hzero => ?_)
    rw [hzero, Int.natCast_zero, Int.ediv_zero] at h
    cases h
  have hn : (n : Int) ≤ 65075262 := Int.ofNat_le.2 hn
  unfold maxExpandedPower at h ⊢
  unfold Width.clamp32
  split_ifs
  · have := Int.ediv_lt_of_lt_mul hpos (show (-2147483648 : Int) < -32 * n by omega)
    omega
  · have := Int.le_ediv_of_mul_le hpos (show 33 * (n : Int) ≤ 2147483647 by omega)
    omega
  · exact h

theorem lasting_of_mem_radicalShare {normalize : Rat → List (Atom × Int) → Form} {n : Nat} {k : Int}
    (hx : x ∈ (radicalShare (powWith normalize) f n k).kept) : Lasting x := by
  rw [radicalShare] at hx
  split at hx
  · dsimp only at hx
    split at hx
    · cases hx
    · -- the rest is below the index
      rw [List.mem_singleton.1 hx]
      refine fun hn => ⟨clamp32_clamp32 _, .inl ?_⟩
      rcases Nat.eq_zero_or_pos n with rfl | hpos
      · exact Int.ediv_zero _
      · have hnonneg := Int.emod_nonneg k (by omega : (n : Int) ≠ 0)
        have hlt := Int.emod_lt_of_pos k (by omega : (0 : Int) < n)
        have hn : (n : Int) ≤ 65075262 := Int.ofNat_le.2 hn
        rw [Width.clamp32_of_mem (by omega) (by omega)]
        exact Int.ediv_eq_zero_of_lt hnonneg hlt
  · next hnone =>
    rw [List.mem_singleton.1 hx]
    refine fun hn => ⟨clamp32_clamp32 _, .inr ?_⟩
    refine (powWith_eq_none_iff.1 hnone).imp (lt_natAbs_clamp32_ediv hn) (And.imp_left fun hneg => ?_)
    have hpos : (0 : Int) < n := by
      refine Int.natCast_pos.2 (Nat.pos_of_ne_zero fun hzero => ?_)
      rw [hzero, Int.natCast_zero, Int.ediv_zero] at hneg
      cases hneg
    have hk : k < 0 := not_le.1 fun hk => not_lt.2 (Int.ediv_nonneg hk hpos.le) hneg
    refine Int.ediv_neg_of_neg_of_pos ?_ hpos
    unfold Width.clamp32
    split_ifs <;> omega

theorem lasting_of_mem_share {normalize : Rat → List (Atom × Int) → Form} {y : Atom × Int}
    (hx : x ∈ (share (powWith normalize) y).kept) : Lasting x := by
  obtain ⟨a, k⟩ := y
  cases a with
  | radical f n => exact lasting_of_mem_radicalShare hx
  | reciprocal f =>
    simp only [share, reciprocalShare] at hx
    split at hx
    · next hneg =>
      split at hx
      · cases hx
      · next hnone =>
        -- a large negative exponent stays large when it is clamped
        rw [List.mem_singleton.1 hx]
        intro _
        have hlarge := (powWith_eq_none_iff.1 hnone).resolve_right (by omega)
        unfold Width.clamp32
        unfold maxExpandedPower at hlarge ⊢
        split_ifs <;> omega
    · next hpos =>
      rw [List.mem_singleton.1 hx]
      intro hneg
      unfold Width.clamp32 at hneg
      split_ifs at hneg <;> omega
  | _ =>
    obtain ⟨b, l⟩ := x
    obtain rfl := atom_of_mem_kept_share hx
    trivial

/-- What stays of a product is lasting, where powers are multiplied out. -/
theorem lasting_kept (normalize : Rat → List (Atom × Int) → Form)
    (h : ∀ x ∈ factors, x.1.Throughout Lasting) : Monomial.Lasting ⟨Monomial.collectFactors
      ((shares (powWith normalize) (Monomial.collectFactors factors)).flatMap Share.kept)⟩ := by
  have hpairwise := pairwise_kept (powWith normalize) (Monomial.sorted_collectFactors factors)
  intro x hx
  obtain ⟨-, hx⟩ := (Monomial.mem_collectFactors_of_pairwise hpairwise).1 hx
  refine ⟨?_, forall_kept Atom.throughout_root (Monomial.forall_collectFactors h) x hx⟩
  rcases exists_of_mem_kept hx with ⟨y, -, hx⟩ | ⟨n, -, hx⟩
  · exact lasting_of_mem_share hx
  · rw [(eq_of_mem_kept_rootShare hx).1]
    trivial

/-! ### Products up to a level -/

/-- Products of atoms that have a level at most are normalised to lasting monomials. -/
def LastsUpTo (L : Nat) (normalize : Rat → List (Atom × Int) → Form) : Prop :=
  ∀ c factors, (∀ x ∈ factors, x.1.level ≤ L ∧ x.1.Throughout Lasting) →
    (normalize c factors).MonomialsIn (Monomial.LastingUpTo L)

theorem lastingUpTo_one (L : Nat) : one.MonomialsIn (Monomial.LastingUpTo L) :=
  monomialsIn_ofRat ⟨List.forall_mem_nil _, List.forall_mem_nil _⟩ 1

theorem lastingUpTo_of_depth (h : f.Throughout Lasting) (hd : 2 * f.depth ≤ L) :
    f.MonomialsIn (Monomial.LastingUpTo L) := fun t ht =>
  ⟨(levelAtMost_of_depth le_rfl).mono hd t ht, throughout_lasting_iff.1 h t ht⟩

section LastsUpTo

variable {normalize : Rat → List (Atom × Int) → Form} (hn : LastsUpTo L normalize)

include hn

theorem LastsUpTo.mulWith (hf : f.MonomialsIn (Monomial.LastingUpTo L))
    (hg : g.MonomialsIn (Monomial.LastingUpTo L)) :
    (mulWith normalize f g).MonomialsIn (Monomial.LastingUpTo L) := by
  refine monomialsIn_sumAll fun h hh => ?_
  obtain ⟨s, hs, hh⟩ := List.mem_flatMap.1 hh
  obtain ⟨t, ht, rfl⟩ := List.mem_map.1 hh
  unfold mulTermWith
  dsimp only
  split
  · exact monomialsIn_ofTerm (hf s hs) _
  · split
    · exact monomialsIn_ofTerm (hg t ht) _
    · refine hn _ _ fun x hx => ?_
      rcases List.mem_append.1 hx with hx | hx
      · exact ⟨(hf s hs).level x hx, ((hf s hs).lasting x hx).2⟩
      · exact ⟨(hg t ht).level x hx, ((hg t ht).lasting x hx).2⟩

theorem LastsUpTo.scaleExponents (hf : f.MonomialsIn (Monomial.LastingUpTo L)) {m : Monomial}
    {q : Rat} (hm : f.singleTerm? = some (m, q)) (c : Rat) (k : Int) :
    (normalize c (m.scaleExponents k)).MonomialsIn (Monomial.LastingUpTo L) := by
  have hmem : (m, q) ∈ f.terms := by simp [terms_of_singleTerm? hm]
  refine hn _ _ fun x hx => ?_
  obtain ⟨y, hy, rfl⟩ := List.mem_map.1 hx
  exact ⟨(hf _ hmem).level y hy, ((hf _ hmem).lasting y hy).2⟩

theorem LastsUpTo.powNatWith (hf : f.MonomialsIn (Monomial.LastingUpTo L)) (n : Nat) :
    (powNatWith normalize f n).MonomialsIn (Monomial.LastingUpTo L) :=
  powNatWith_of_closed (fun _ _ => hn.mulWith) (lastingUpTo_one L) hf
    fun _ _ hm => hn.scaleExponents hf hm _ _

theorem LastsUpTo.reciprocalOf (hd : 2 * d + 1 ≤ L)
    (hf : f.MonomialsIn (Monomial.LastingUpTo (2 * d))) :
    (reciprocalOf normalize f).MonomialsIn (Monomial.LastingUpTo L) := by
  have hscale : (f.scale f.leadingCoefficient⁻¹).MonomialsIn (Monomial.LastingUpTo (2 * d)) :=
    MonomialsIn.scale hf _
  have hdepth : (f.scale f.leadingCoefficient⁻¹).depth ≤ d :=
    LevelAtMost.depth_le fun t ht => (hscale t ht).level
  refine hn _ _ fun x hx => ?_
  rw [List.mem_singleton.1 hx]
  refine ⟨?_, Atom.throughout_reciprocal.2
    (throughout_lasting_iff.2 fun t ht => (hscale t ht).lasting)⟩
  rw [Atom.level]
  omega

theorem LastsUpTo.inverseWith (hd : 2 * d + 1 ≤ L)
    (hn' : LastsUpTo (2 * d) normalize) (hf : f.MonomialsIn (Monomial.LastingUpTo (2 * d)))
    {budget : Nat} (hg : inverseWith normalize budget f = some g) :
    g.MonomialsIn (Monomial.LastingUpTo L) := by
  have hmono : ∀ f : Form, f.MonomialsIn (Monomial.LastingUpTo (2 * d)) →
      f.MonomialsIn (Monomial.LastingUpTo L) := fun f hf t ht =>
    ⟨fun x hx => ((hf t ht).level x hx).trans (by omega), (hf t ht).lasting⟩
  exact inverseWith_of_closed (fun _ _ => hn'.mulWith) (fun _ _ => hn.mulWith) hmono
    (fun _ _ => MonomialsIn.conjugate) (fun f _ _ hf hm => hn.scaleExponents (hmono f hf) hm _ _)
    (fun _ hf => hn.reciprocalOf hd hf) hf hg

end LastsUpTo

theorem LastsUpTo.mono {normalize : Rat → List (Atom × Int) → Form} {L' : Nat}
    (hn : LastsUpTo L normalize) (hkeeps : KeepsLevel normalize) (hle : L' ≤ L) :
    LastsUpTo L' normalize := fun c factors h t ht =>
  ⟨hkeeps L' c factors (fun x hx => (h x hx).1) t ht,
    (hn c factors (fun x hx => ⟨(h x hx).1.trans hle, (h x hx).2⟩) t ht).lasting⟩

theorem LastsUpTo.powWith {normalize : Rat → List (Atom × Int) → Form}
    (hn : LastsUpTo L normalize) (hkeeps : KeepsLevel normalize) (hf : f.Throughout Lasting)
    {k : Int} (hd : if k < 0 then 2 * f.depth + 1 ≤ L else 2 * f.depth ≤ L)
    (hg : powWith normalize f k = some g) : g.MonomialsIn (Monomial.LastingUpTo L) := by
  unfold Form.powWith at hg
  split at hg
  · cases hg
  · split at hg
    · next hneg =>
      rw [if_pos hneg] at hd
      obtain ⟨i, hi, rfl⟩ := Option.map_eq_some_iff.1 hg
      exact hn.powNatWith (hn.inverseWith hd (hn.mono hkeeps (by omega))
        (lastingUpTo_of_depth hf le_rfl) hi) _
    · next hpos =>
      rw [if_neg hpos] at hd
      cases hg
      exact hn.powNatWith (lastingUpTo_of_depth hf hd) _

/-- What is multiplied out of a factor is lasting. -/
theorem lastingUpTo_of_mem_share {r : Nat} {normalize : Rat → List (Atom × Int) → Form}
    (hn : LastsUpTo (r / 2) normalize) (hkeeps : KeepsLevel normalize)
    (hx : SettlesWithin (r + 1) x) (hlasting : x.1.Throughout Lasting)
    (hg : g ∈ (share (powWith normalize) x).expanded) :
    g.MonomialsIn (Monomial.LastingUpTo (r / 2)) := by
  rcases hx with hx | hx
  · rw [hx.eq_one_of_mem_expanded hg]
    exact lastingUpTo_one _
  · have hlevel : 2 * x.1.level ≤ r + 2 := by omega
    have hexpanded : g ∈ (shares (powWith normalize) [x]).flatMap Share.expanded :=
      List.mem_flatMap.2 ⟨_, List.mem_append_left _ (List.mem_singleton_self _), hg⟩
    rcases exists_of_mem_expanded hexpanded with ⟨f, n, k, hf, hp⟩ | ⟨f, k, hf, hneg, hp⟩
    · obtain rfl := List.mem_singleton.1 hf
      have hdepth : 2 * (2 * (f.depth + 1)) ≤ r + 2 := hlevel
      exact hn.powWith hkeeps (Atom.throughout_radical.1 hlasting) (by split <;> omega) hp
    · obtain rfl := List.mem_singleton.1 hf
      have hdepth : 2 * (2 * f.depth + 1) ≤ r + 2 := hlevel
      refine hn.powWith hkeeps (Atom.throughout_reciprocal.1 hlasting) ?_ hp
      rw [if_neg (by omega)]
      omega

/-! ### Enough unfoldings -/

/-- **Normalisation multiplies out what it can**: with the unfoldings that a product needs, it is
normalised to lasting monomials. -/
theorem lasting_normalize {r : Nat} (hlasting : ∀ x ∈ factors, x.1.Throughout Lasting)
    (h : ∀ x ∈ Monomial.collectFactors factors, SettlesWithin r x) (c : Rat) :
    (normalize (r + 1) c factors).MonomialsIn Monomial.Lasting := by
  induction r generalizing factors c with
  | zero =>
    rcases eq_or_ne c 0 with rfl | hc
    · rw [normalize_zero_coefficient]
      exact monomialsIn_zero
    · have hterm : (sharedTerm c (shares (powWith (normalize 0))
          (Monomial.collectFactors factors))).MonomialsIn Monomial.Lasting :=
        monomialsIn_ofTerm (lasting_kept _ hlasting) _
      have hone := foldl_mulWith_one (normalize 0) fun g hg =>
        eq_one_of_unmoved (normalize 0) (fun x hx => unmoved_of_settlesWithin_zero (h x hx)) hg
      rw [normalize, normalizeWith_eq _ _ hc]
      dsimp only
      rw [hone, if_pos (by rfl)]
      exact hterm
  | succ r ih =>
    have hkeeps := keepsLevel_normalize (r + 1)
    have hn : LastsUpTo (r / 2) (normalize (r + 1)) := fun c factors h t ht =>
      ⟨hkeeps _ c factors (fun x hx => (h x hx).1) t ht,
        ih (fun x hx => (h x hx).2) (fun x hx => .inr (.inl (by
          have := level_le_of_mem_collectFactors (fun x hx => (h x hx).1) hx
          omega))) c t ht⟩
    rcases eq_or_ne c 0 with rfl | hc
    · rw [normalize_zero_coefficient]
      exact monomialsIn_zero
    · have hkept := lasting_kept (normalize (r + 1)) hlasting
      have hcollected : ∀ x ∈ Monomial.collectFactors factors, x.1.Throughout Lasting := by
        intro x hx
        obtain ⟨k, hk⟩ := Monomial.exists_of_mem_collectFactors hx
        exact hlasting (x.1, k) hk
      have hexpanded : ∀ g ∈ (shares (powWith (normalize (r + 1)))
          (Monomial.collectFactors factors)).flatMap Share.expanded,
          g.MonomialsIn (Monomial.LastingUpTo (r / 2)) := by
        intro g hg
        obtain ⟨s, hs, hg⟩ := List.mem_flatMap.1 hg
        rcases List.mem_append.1 hs with hs | hs
        · obtain ⟨x, hx, rfl⟩ := List.mem_map.1 hs
          exact lastingUpTo_of_mem_share hn hkeeps (h x hx) (hcollected x hx) hg
        · obtain ⟨n, -, rfl⟩ := List.mem_map.1 hs
          cases hg
      have hproduct := foldl_mulWith_of_closed (fun _ _ => hn.mulWith) hexpanded
        (lastingUpTo_one (r / 2))
      have hterm : (sharedTerm c (shares (powWith (normalize (r + 1)))
          (Monomial.collectFactors factors))).MonomialsIn Monomial.Lasting :=
        monomialsIn_ofTerm hkept _
      rw [normalize, normalizeWith_eq _ _ hc]
      dsimp only
      split
      · exact hterm
      · refine monomialsIn_sumAll fun k hk => ?_
        obtain ⟨s, hs, hk⟩ := List.mem_flatMap.1 hk
        obtain ⟨t, ht, rfl⟩ := List.mem_map.1 hk
        unfold mulTermWith
        dsimp only
        split
        · exact monomialsIn_ofTerm (hterm s hs) _
        · split
          · exact monomialsIn_ofTerm (hproduct t ht).lasting _
          · refine ih (fun x hx => ?_) (fun x hx => settlesWithin_append h
              (factors_of_mem_sharedTerm hs) (hproduct t ht).level hx) _
            rcases List.mem_append.1 hx with hx | hx
            · exact (hterm s hs x hx).2
            · exact ((hproduct t ht).lasting x hx).2

/-- Products are normalised with enough unfoldings for their level. -/
theorem lastsUpTo_normalize {n : Nat} (hn : 2 * L + 1 ≤ n) : LastsUpTo L (normalize n) := by
  obtain ⟨r, rfl⟩ : ∃ r, n = r + 1 := ⟨n - 1, by omega⟩
  refine fun c factors h t ht => ⟨keepsLevel_normalize _ L c factors (fun x hx => (h x hx).1) t ht,
    lasting_normalize (fun x hx => (h x hx).2) (fun x hx => .inr (.inl ?_)) c t ht⟩
  have := level_le_of_mem_collectFactors (fun x hx => (h x hx).1) hx
  omega

theorem throughout_ofFactors (c : Rat) (h : ∀ x ∈ factors, x.1.Throughout Lasting) :
    (ofFactors c factors).Throughout Lasting := by
  have hdepth := Monomial.depthFactors_le_iff.1 (le_refl (Monomial.depthFactors factors))
  refine throughout_lasting_iff.2 fun t ht => (lastsUpTo_normalize
    (L := 2 * Monomial.depthFactors factors) (by unfold unfoldings; omega) c factors
    (fun x hx => ⟨x.1.level_le.trans (Nat.mul_le_mul_left 2 (hdepth x hx)), h x hx⟩) t ht).lasting

theorem Throughout.mul (hf : f.Throughout Lasting) (hg : g.Throughout Lasting) :
    (f.mul g).Throughout Lasting := by
  have hn : LastsUpTo (2 * (f.depth + g.depth)) (normalize (unfoldings (f.depth + g.depth))) :=
    lastsUpTo_normalize (by unfold unfoldings; omega)
  exact throughout_lasting_iff.2 fun t ht => (hn.mulWith (lastingUpTo_of_depth hf (by omega))
    (lastingUpTo_of_depth hg (by omega)) t ht).lasting

theorem Throughout.pow {k : Int} (hf : f.Throughout Lasting) (hg : f.pow? k = some g) :
    g.Throughout Lasting := by
  have hn : LastsUpTo (2 * f.depth + 1) (normalize (unfoldings f.depth)) :=
    lastsUpTo_normalize (by unfold unfoldings; omega)
  exact throughout_lasting_iff.2 fun t ht =>
    (hn.powWith (keepsLevel_normalize _) hf (by split <;> omega) hg t ht).lasting

theorem Throughout.inverse (hf : f.Throughout Lasting) (hg : f.inverse? = some g) :
    g.Throughout Lasting := by
  have hn : LastsUpTo (2 * f.depth + 1) (normalize (unfoldings f.depth)) :=
    lastsUpTo_normalize (by unfold unfoldings; omega)
  exact throughout_lasting_iff.2 fun t ht => (hn.inverseWith le_rfl
    (hn.mono (keepsLevel_normalize _) (Nat.le_succ _)) (lastingUpTo_of_depth hf le_rfl)
    hg t ht).lasting

end Form

/-! ### Forms that operations make -/

mutual

/-- Nothing more is to be multiplied out in the atoms that forms are made of. -/
theorem Atom.Constructible.throughout_lasting : ∀ {a : Atom}, a.Constructible →
    a.Throughout Form.Lasting
  | _, .symbol _ | _, .pi | _, .e | _, .imaginaryUnit | _, .root _ _ => fun _ h => by cases h
  | _, .radical hf _ => Atom.throughout_radical.2 (Form.Constructible.throughout_lasting hf)
  | _, .apply _ hargs => Atom.throughout_apply.2 fun f hf =>
      Form.Constructible.throughout_lasting (hargs f hf)
  | _, .power hf hg => Atom.throughout_power.2
      ⟨Form.Constructible.throughout_lasting hf, Form.Constructible.throughout_lasting hg⟩
  | _, .reciprocal hf => Atom.throughout_reciprocal.2 (Form.Constructible.throughout_lasting hf)

/-- **Powers of radicals and negative powers of reciprocals are multiplied out** in the forms that
operations make, unless they are beyond the limit. -/
theorem Form.Constructible.throughout_lasting : ∀ {f : Form}, f.Constructible →
    f.Throughout Form.Lasting
  | _, .product c h => Form.throughout_ofFactors c fun x hx =>
      Atom.Constructible.throughout_lasting (h x hx)
  | _, .add hf hg => Form.throughout_lasting_iff.2 (Form.MonomialsIn.add
      (Form.throughout_lasting_iff.1 (Form.Constructible.throughout_lasting hf))
      (Form.throughout_lasting_iff.1 (Form.Constructible.throughout_lasting hg)))
  | _, .neg hf => Form.throughout_lasting_iff.2
      (Form.throughout_lasting_iff.1 (Form.Constructible.throughout_lasting hf)).neg
  | _, .mul hf hg => (Form.Constructible.throughout_lasting hf).mul
      (Form.Constructible.throughout_lasting hg)
  | _, .scale hf k => Form.throughout_lasting_iff.2
      ((Form.throughout_lasting_iff.1 (Form.Constructible.throughout_lasting hf)).scale k)
  | _, .pow hf hg => (Form.Constructible.throughout_lasting hf).pow hg
  | _, .inverse hf hg => (Form.Constructible.throughout_lasting hf).inverse hg
  | _, .realPart hf => Form.throughout_lasting_iff.2
      (Form.throughout_lasting_iff.1 (Form.Constructible.throughout_lasting hf)).realPart
  | _, .imaginaryPart hf => Form.throughout_lasting_iff.2
      ((Form.throughout_lasting_iff.1 (Form.Constructible.throughout_lasting hf)).imaginaryPart
        fun _ hm x hx => hm x (List.mem_filter.1 hx).1)

end

/-- **Normalisation leaves the terms of normal forms alone**, if operations make these forms. -/
theorem Form.IsNormal.settled {f : Form} (hf : f.IsNormal) (h : f.Constructible) :
    f.MonomialsIn Monomial.Settled := by
  have hstored := Form.stored_iff.1 h.stored
  have hlasting := Form.throughout_lasting_iff.1 h.throughout_lasting
  intro t ht
  have hnormal := (hf.over le_rfl t ht).2
  refine ⟨hnormal.arranged, fun hx => ?_, fun x hx => ((hstored t ht).exponent x hx).2,
    fun x hx => ?_⟩
  · cases hnormal.atoms _ hx with
    | root hq hone hlow hhigh hextract => exact ⟨hone, hextract, hlow⟩
  · obtain ⟨a, k⟩ := x
    cases a with
    | radical f n =>
      obtain ⟨hpos, hlt⟩ : 0 < k ∧ k < n := hnormal.arranged.exponents _ hx
      exact Int.ediv_eq_zero_of_lt hpos.le hlt
    | reciprocal f => exact (hlasting t ht _ hx).1
    | _ => trivial

end Resolvent

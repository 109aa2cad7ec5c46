import Resolvent.Proofs.Form.Valuation

/-!
# The value of a normalised product

Normalisation takes a product of atoms apart into shares, one for each factor that is no root and
one for each index of roots, and puts the shares together again.  Each share has the value of what
it comes from (`Form.Share.value_share`, `Form.Share.value_rootShare`), so the result of
`Form.normalizeWith` has the value of the product (`Form.value_normalizeWith`), whatever is used to
multiply forms and to raise them to powers, as long as that has the right values.
-/

namespace Resolvent

namespace Form

/-! ### Indices of roots -/

theorem mem_insertIndex {n m : Nat} {indices : List Nat} :
    n ∈ insertIndex m indices ↔ n = m ∨ n ∈ indices := by
  induction indices with
  | nil => simp [insertIndex]
  | cons k indices ih =>
    rw [insertIndex]
    split
    · simp
    · split
      · next h => simp [h]
      · rw [List.mem_cons, ih, List.mem_cons]
        tauto

theorem pairwise_insertIndex {m : Nat} {indices : List Nat} (h : indices.Pairwise (· < ·)) :
    (insertIndex m indices).Pairwise (· < ·) := by
  induction indices with
  | nil => simp [insertIndex]
  | cons k indices ih =>
    obtain ⟨hk, htail⟩ := List.pairwise_cons.1 h
    rw [insertIndex]
    split
    · next hlt =>
      refine List.pairwise_cons.2 ⟨fun n hn => ?_, h⟩
      rcases List.mem_cons.1 hn with rfl | hn
      · exact hlt
      · exact hlt.trans (hk n hn)
    · split
      · exact h
      · refine List.pairwise_cons.2 ⟨fun n hn => ?_, ih htail⟩
        rcases mem_insertIndex.1 hn with rfl | hn
        · omega
        · exact hk n hn

/-- Takes note of the index of a factor that is a root. -/
def noteIndex (indices : List Nat) (x : Atom × Int) : List Nat :=
  match x.1 with
  | .root _ index => insertIndex index indices
  | _ => indices

theorem rootIndices_eq (factors : List (Atom × Int)) :
    rootIndices factors = factors.foldl noteIndex [] := rfl

theorem pairwise_noteIndex {indices : List Nat} (h : indices.Pairwise (· < ·))
    (x : Atom × Int) : (noteIndex indices x).Pairwise (· < ·) := by
  unfold noteIndex
  split
  · exact pairwise_insertIndex h
  · exact h

theorem mem_noteIndex {n : Nat} {indices : List Nat} {x : Atom × Int} :
    n ∈ noteIndex indices x ↔ n ∈ indices ∨ ∃ q, x.1 = .root q n := by
  unfold noteIndex
  split
  · next q m hx =>
    rw [mem_insertIndex, hx]
    simp only [Atom.root.injEq]
    tauto
  · next hx =>
    refine ⟨.inl, fun h => h.resolve_right ?_⟩
    rintro ⟨q, hq⟩
    exact hx q n hq

theorem mem_foldl_noteIndex {n : Nat} {factors : List (Atom × Int)} {indices : List Nat} :
    n ∈ factors.foldl noteIndex indices ↔ n ∈ indices ∨ ∃ q k, (Atom.root q n, k) ∈ factors := by
  induction factors generalizing indices with
  | nil => simp
  | cons x factors ih =>
    obtain ⟨a, k⟩ := x
    rw [List.foldl_cons, ih, mem_noteIndex]
    constructor
    · rintro ((h | ⟨q, rfl⟩) | ⟨q, l, h⟩)
      · exact .inl h
      · exact .inr ⟨q, k, List.mem_cons_self⟩
      · exact .inr ⟨q, l, List.mem_cons_of_mem _ h⟩
    · rintro (h | ⟨q, l, h⟩)
      · exact .inl (.inl h)
      · rcases List.mem_cons.1 h with heq | h
        · exact .inl (.inr ⟨q, (Prod.mk.inj heq).1.symm⟩)
        · exact .inr ⟨q, l, h⟩

theorem mem_rootIndices {n : Nat} {factors : List (Atom × Int)} :
    n ∈ rootIndices factors ↔ ∃ q k, (Atom.root q n, k) ∈ factors := by
  rw [rootIndices_eq, mem_foldl_noteIndex]
  simp

theorem pairwise_rootIndices (factors : List (Atom × Int)) :
    (rootIndices factors).Pairwise (· < ·) := by
  rw [rootIndices_eq]
  suffices h : ∀ indices : List Nat, indices.Pairwise (· < ·) →
      (factors.foldl noteIndex indices).Pairwise (· < ·) from h [] List.Pairwise.nil
  induction factors with
  | nil => exact fun _ h => h
  | cons x factors ih => exact fun indices h => ih _ (pairwise_noteIndex h x)

theorem nodup_rootIndices (factors : List (Atom × Int)) : (rootIndices factors).Nodup :=
  (pairwise_rootIndices factors).imp fun h => Nat.ne_of_lt h

theorem mem_radicandsOf {n : Nat} {factors : List (Atom × Int)} {q : Rat} {k : Int} :
    (q, k) ∈ radicandsOf n factors ↔ (Atom.root q n, k) ∈ factors := by
  simp only [radicandsOf, List.mem_filterMap]
  constructor
  · rintro ⟨⟨a, l⟩, hx, h⟩
    split at h
    · next r m hroot =>
      simp only at hroot
      split at h
      · next hm =>
        simp only [Option.some.injEq, Prod.mk.injEq] at h
        obtain ⟨rfl, rfl⟩ := h
        rwa [hroot, hm] at hx
      · cases h
    · cases h
  · intro h
    exact ⟨_, h, by simp⟩

theorem radicandsOf_cons_root (q : Rat) (n m : Nat) (k : Int) (factors : List (Atom × Int)) :
    radicandsOf n ((.root q m, k) :: factors) =
      if n = m then (q, k) :: radicandsOf n factors else radicandsOf n factors := by
  rw [radicandsOf, List.filterMap_cons]
  by_cases h : n = m
  · simp [h, radicandsOf]
  · simp [h, Ne.symm h, radicandsOf]

theorem radicandsOf_cons_of_not_root {x : Atom × Int} (h : ∀ q n, x.1 ≠ .root q n) (n : Nat)
    (factors : List (Atom × Int)) : radicandsOf n (x :: factors) = radicandsOf n factors := by
  obtain ⟨a, k⟩ := x
  cases a with
  | root q m => exact absurd rfl (h q m)
  | _ => rfl

end Form

variable {K : Type*} [Field K]

namespace Form

/-! ### Products of shares -/

section Grouping

variable {M : Type*} [CommMonoid M]

theorem prod_map_ite_mul {indices : List Nat} (hnodup : indices.Nodup) {m : Nat}
    (hm : m ∈ indices) (w : M) (g : Nat → M) :
    (indices.map fun n => if n = m then w * g n else g n).prod = w * (indices.map g).prod := by
  induction indices with
  | nil => exact absurd hm List.not_mem_nil
  | cons n indices ih =>
    obtain ⟨hn, hnodup⟩ := List.nodup_cons.1 hnodup
    rw [List.map_cons, List.prod_cons, List.map_cons, List.prod_cons]
    rcases List.mem_cons.1 hm with rfl | hm
    · -- no other index is the one that is multiplied
      have hrest : (indices.map fun n => if n = m then w * g n else g n) = indices.map g :=
        List.map_congr_left fun k hk => if_neg fun h : k = m => hn (h ▸ hk)
      rw [hrest, if_pos rfl, mul_assoc]
    · rw [if_neg fun h : n = m => hn (h ▸ hm), ih hnodup hm, mul_left_comm]

/-- What a function gives for a factor, one for a root. -/
def atPlain (w : Atom × Int → M) : Atom × Int → M
  | (.root _ _, _) => 1
  | (a, k) => w (a, k)

/-- The product of what a function gives for the roots with an index among the factors. -/
def atRoots (w : Atom × Int → M) (factors : List (Atom × Int)) (n : Nat) : M :=
  ((radicandsOf n factors).map fun x => w (.root x.1 n, x.2)).prod

/-- A product over factors by those that are no roots, and roots index by index. -/
theorem prod_eq_plain_mul_roots (w : Atom × Int → M) {indices : List Nat}
    (hnodup : indices.Nodup) {factors : List (Atom × Int)}
    (h : ∀ q n k, (Atom.root q n, k) ∈ factors → n ∈ indices) :
    (factors.map w).prod =
      (factors.map (atPlain w)).prod * (indices.map (atRoots w factors)).prod := by
  induction factors with
  | nil =>
    have hone : indices.map (atRoots w []) = indices.map fun _ => 1 := rfl
    rw [hone]
    simp
  | cons x factors ih =>
    have hrest := ih fun q n k hmem => h q n k (List.mem_cons_of_mem _ hmem)
    rw [List.map_cons, List.prod_cons, hrest, List.map_cons, List.prod_cons]
    -- a root joins the roots with its index, any other factor stands by itself
    by_cases hroot : ∃ q m, x.1 = .root q m
    · obtain ⟨q, m, hx⟩ := hroot
      obtain ⟨a, k⟩ := x
      simp only at hx
      subst hx
      have hroots : atRoots w ((Atom.root q m, k) :: factors) = fun n =>
          if n = m then w (.root q m, k) * atRoots w factors n else atRoots w factors n := by
        funext n
        rw [atRoots, radicandsOf_cons_root]
        split
        · next hn => rw [List.map_cons, List.prod_cons, hn, atRoots]
        · rfl
      rw [hroots, prod_map_ite_mul hnodup (h q m k List.mem_cons_self)]
      simp only [atPlain, one_mul]
      exact mul_left_comm _ _ _
    · have hnot : ∀ q m, x.1 ≠ .root q m := fun q m hx => hroot ⟨q, m, hx⟩
      have hroots : atRoots w (x :: factors) = atRoots w factors := by
        funext n
        rw [atRoots, radicandsOf_cons_of_not_root hnot, atRoots]
      have hplain : atPlain w x = w x := by
        obtain ⟨a, k⟩ := x
        cases a with
        | root q m => exact absurd rfl (hnot q m)
        | _ => rfl
      rw [hroots, hplain, mul_assoc]

end Grouping

/-- The value of a factor, one for a root. -/
def plainValue (v : Atom → K) : Atom × Int → K := atPlain fun x => v x.1 ^ x.2

/-- The value of the roots with an index among the factors. -/
def rootValue (v : Atom → K) (factors : List (Atom × Int)) (n : Nat) : K :=
  ((radicandsOf n factors).map fun x => v (.root x.1 n) ^ x.2).prod

namespace Share

/-- The value of a share. -/
def value (v : Atom → K) (s : Share) : K :=
  s.coefficient * Monomial.factorsValue v s.kept * (s.expanded.map (Form.value v)).prod

theorem value_kept (v : Atom → K) (factors : List (Atom × Int)) :
    value v { kept := factors } = Monomial.factorsValue v factors := by
  simp [value]

end Share

variable (v : Valuation K)

theorem value_unitShare [CharZero K] (k : Int) :
    (unitShare k).value v = v .imaginaryUnit ^ k := by
  have hne := v.imaginaryUnit_ne_zero
  have hfour : v .imaginaryUnit ^ (4 : Nat) = 1 := by
    rw [show 4 = 2 * 2 from rfl, pow_mul, v.imaginaryUnit_sq]
    norm_num
  -- powers of the unit repeat after four
  have hsplit : v .imaginaryUnit ^ k = v .imaginaryUnit ^ (k % 4) := by
    calc v .imaginaryUnit ^ k = v .imaginaryUnit ^ ((4 : Nat) * (k / 4) + k % 4) := by
          rw [Nat.cast_ofNat, Int.mul_ediv_add_emod]
      _ = v .imaginaryUnit ^ (k % 4) := by
          rw [zpow_add₀ hne, zpow_mul, zpow_natCast, hfour, one_zpow, one_mul]
  have hcube : v .imaginaryUnit ^ (3 : Nat) = -v .imaginaryUnit := by
    rw [pow_succ, v.imaginaryUnit_sq, neg_one_mul]
  have hrange : k % 4 = 0 ∨ k % 4 = 1 ∨ k % 4 = 2 ∨ k % 4 = 3 := by omega
  rw [hsplit]
  unfold unitShare Share.value
  rcases hrange with h | h | h | h
  · simp [h, Monomial.factorsValue_nil]
  · simp [h, Monomial.factorsValue_cons, Monomial.factorsValue_nil]
  · have hsq : v .imaginaryUnit ^ (2 : Int) = -1 := by exact_mod_cast v.imaginaryUnit_sq
    simp [h, Monomial.factorsValue_nil, hsq]
  · have hcube' : v .imaginaryUnit ^ (3 : Int) = -v .imaginaryUnit := by exact_mod_cast hcube
    simp [h, Monomial.factorsValue_cons, Monomial.factorsValue_nil, hcube']

theorem value_radicalShare {power : Form → Int → Option Form} {f : Form} {n : Nat} {k : Int}
    (hpower : ∀ p, power f (k / n) = some p → p.value v = f.value v ^ (k / n))
    (hlaw : v.Lawful (.radical f n)) (hfits : Fits (.radical f n, k)) :
    (radicalShare power f n k).value v = v (.radical f n) ^ k := by
  obtain ⟨hn, hne, hroot⟩ := hlaw
  unfold radicalShare
  split
  · next p hp =>
    -- whole powers of the radical are powers of its radicand
    have hsplit : v (.radical f n) ^ k = v (.radical f n) ^ (k % n) * f.value v ^ (k / n) := by
      calc v (.radical f n) ^ k = v (.radical f n) ^ ((n : Int) * (k / n) + k % n) := by
            rw [Int.mul_ediv_add_emod]
        _ = v (.radical f n) ^ (k % n) * f.value v ^ (k / n) := by
            rw [zpow_add₀ hne, zpow_mul, zpow_natCast, hroot, mul_comm]
    rw [hsplit]
    split
    · next hzero =>
      simp [Share.value, Monomial.factorsValue_nil, hpower p hp, hzero]
    · simp [Share.value, Monomial.factorsValue_cons, Monomial.factorsValue_nil, hpower p hp,
        clamp32_eq hfits.2]
  · rw [Share.value_kept, Monomial.factorsValue_cons, Monomial.factorsValue_nil,
      clamp32_eq hfits.1, mul_one]

theorem value_reciprocalShare {power : Form → Int → Option Form} {f : Form} {k : Int}
    (hpower : k < 0 → ∀ p, power f (-k) = some p → p.value v = f.value v ^ (-k))
    (hlaw : v.Lawful (.reciprocal f)) (hfits : Fits (.reciprocal f, k)) :
    (reciprocalShare power f k).value v = v (.reciprocal f) ^ k := by
  have hkept : Share.value v { kept := [(.reciprocal f, Width.clamp32 k)] } =
      v (.reciprocal f) ^ k := by
    rw [Share.value_kept, Monomial.factorsValue_cons, Monomial.factorsValue_nil,
      clamp32_eq hfits.isInt32, mul_one]
  unfold reciprocalShare
  split
  · next hneg =>
    split
    · next p hp =>
      have hinv : v (.reciprocal f) = (f.value v)⁻¹ := eq_inv_of_mul_eq_one_left hlaw
      simp [Share.value, Monomial.factorsValue_nil, hpower hneg p hp, hinv]
    · exact hkept
  · exact hkept

/-- The powers that normalisation of a factor asks for have the right values. -/
def PowersSound (power : Form → Int → Option Form) : Atom × Int → Prop
  | (.radical f n, k) => ∀ p, power f (k / n) = some p → p.value v = f.value v ^ (k / n)
  | (.reciprocal f, k) => k < 0 → ∀ p, power f (-k) = some p → p.value v = f.value v ^ (-k)
  | _ => True

/-! ### The share of the roots with an index -/

theorem power?_eq_zpow {q : Rat} (hq : q ≠ 0) (k : Int) : Rational.power? q k = some (q ^ k) := by
  have hpow : ∀ n : Nat, Rat.pow q n = q ^ n := fun _ => rfl
  unfold Rational.power? Rational.inverse?
  split
  · next hk =>
    have habs : k = -(k.natAbs : Int) := by omega
    rw [hpow, if_neg (pow_ne_zero _ hq)]
    conv_rhs => rw [habs, zpow_neg, zpow_natCast]
  · next hk =>
    have habs : k = (k.natAbs : Int) := by omega
    rw [hpow]
    conv_rhs => rw [habs, zpow_natCast]

theorem wholePower_eq {n : Nat} {q : Rat} {k : Int} (hq : 0 < q)
    (hk : Width.isInt32 k = true) : wholePower n (q, k) = q ^ (k / n) := by
  have hwhole : Width.isInt32 (k / n) = true := by
    simp only [Width.isInt32, decide_eq_true_eq] at hk ⊢
    rcases n.eq_zero_or_pos with rfl | hn
    · simp
    · refine ⟨?_, Int.ediv_le_of_le_mul (by omega) (by omega)⟩
      rw [Int.le_ediv_iff_mul_le (by omega)]
      omega
  simp only [wholePower, hwhole, if_true, power?_eq_zpow hq.ne', Option.getD_some]

theorem restPower_eq {n : Nat} {q : Rat} {k : Int} (hq : 0 < q)
    (hk : Width.isInt32 (k % n) = true) : restPower n (q, k) = q ^ (k % n) := by
  simp only [restPower, hk, if_true, power?_eq_zpow hq.ne', Option.getD_some]

theorem exists_restPower_eq {n : Nat} (hn : 0 < n) (x : Rat × Int) :
    ∃ j : Nat, restPower n x = x.1 ^ j := by
  have hpow : ∀ k : Int, 0 ≤ k → ∃ j : Nat, (Rational.power? x.1 k).getD 1 = x.1 ^ j := fun k hk =>
    ⟨k.natAbs, by rw [Rational.power?, if_neg (not_lt.2 hk), Option.getD_some]; rfl⟩
  unfold restPower
  dsimp only
  split
  · exact hpow _ (Int.emod_nonneg _ (by omega))
  · exact hpow 0 le_rfl

/-- What is outside the root of roots with an index. -/
def wholeProduct (n : Nat) (radicands : List (Rat × Int)) : Rat :=
  radicands.foldl (fun q x => q * wholePower n x) 1

/-- What is left under the root of roots with an index. -/
def restProduct (n : Nat) (radicands : List (Rat × Int)) : Rat :=
  radicands.foldl (fun q x => q * restPower n x) 1

theorem rootShare_eq (factors : List (Atom × Int)) (n : Nat) :
    rootShare factors n =
      { coefficient := wholeProduct n (radicandsOf n factors) *
          (PerfectPower.extract (restProduct n (radicandsOf n factors)) n).1
        kept := if (PerfectPower.extract (restProduct n (radicandsOf n factors)) n).2 = 1 then []
          else [(.root (PerfectPower.extract (restProduct n (radicandsOf n factors)) n).2 n, 1)] } :=
  rfl

theorem foldl_mul_eq (g : Rat × Int → Rat) (radicands : List (Rat × Int)) (start : Rat) :
    radicands.foldl (fun q x => q * g x) start = start * (radicands.map g).prod := by
  induction radicands generalizing start with
  | nil => simp
  | cons x radicands ih =>
    rw [List.foldl_cons, ih, List.map_cons, List.prod_cons, mul_assoc]

theorem wholeProduct_cons (n : Nat) (x : Rat × Int) (radicands : List (Rat × Int)) :
    wholeProduct n (x :: radicands) = wholePower n x * wholeProduct n radicands := by
  simp [wholeProduct, foldl_mul_eq]

theorem restProduct_cons (n : Nat) (x : Rat × Int) (radicands : List (Rat × Int)) :
    restProduct n (x :: radicands) = restPower n x * restProduct n radicands := by
  simp [restProduct, foldl_mul_eq]

theorem restPower_pos {n : Nat} {q : Rat} (hq : 0 < q) (k : Int) : 0 < restPower n (q, k) := by
  rw [restPower, power?_eq_zpow hq.ne', Option.getD_some]
  exact zpow_pos hq _

theorem restProduct_pos {n : Nat} {radicands : List (Rat × Int)} (h : ∀ x ∈ radicands, 0 < x.1) :
    0 < restProduct n radicands := by
  induction radicands with
  | nil => simp [restProduct]
  | cons x radicands ih =>
    rw [restProduct_cons]
    exact mul_pos (restPower_pos (h x List.mem_cons_self) x.2)
      (ih fun y hy => h y (List.mem_cons_of_mem _ hy))

theorem restProduct_radicandsOf_pos {n : Nat} {factors : List (Atom × Int)}
    (h : ∀ q k, (Atom.root q n, k) ∈ factors → 0 < q) :
    0 < restProduct n (radicandsOf n factors) :=
  restProduct_pos fun x hx => h x.1 x.2 (mem_radicandsOf.1 hx)

theorem prod_root_zpow [CharZero K] {n : Nat} (hn : 2 ≤ n) {radicands : List (Rat × Int)}
    (h : ∀ x ∈ radicands,
      0 < x.1 ∧ Width.isInt32 x.2 = true ∧ Width.isInt32 (x.2 % n) = true) :
    (radicands.map fun x => v (.root x.1 n) ^ x.2).prod =
      (wholeProduct n radicands : K) * v (.root (restProduct n radicands) n) := by
  induction radicands with
  | nil => simp [wholeProduct, restProduct, v.root_one hn]
  | cons x radicands ih =>
    obtain ⟨q, k⟩ := x
    obtain ⟨hq, hk, hrest⟩ := h _ List.mem_cons_self
    have htail : ∀ y ∈ radicands,
        0 < y.1 ∧ Width.isInt32 y.2 = true ∧ Width.isInt32 (y.2 % n) = true :=
      fun y hy => h y (List.mem_cons_of_mem _ hy)
    have hpos : 0 < restProduct n radicands := restProduct_pos fun y hy => (htail y hy).1
    -- the whole powers go outside, and the two roots are multiplied
    rw [List.map_cons, List.prod_cons, ih htail, wholeProduct_cons, restProduct_cons,
      wholePower_eq hq hk, restPower_eq hq hrest, v.root_mul (zpow_pos hq _) hpos hn,
      v.root_zpow hq hn]
    push_cast
    ring

theorem value_rootShare [CharZero K] {factors : List (Atom × Int)} {n : Nat}
    (h : ∀ q k, (Atom.root q n, k) ∈ factors → v.Lawful (.root q n) ∧ Fits (.root q n, k))
    (hn : 2 ≤ n) : (rootShare factors n).value v = rootValue v factors n := by
  have hradicands : ∀ x ∈ radicandsOf n factors,
      0 < x.1 ∧ Width.isInt32 x.2 = true ∧ Width.isInt32 (x.2 % n) = true := by
    intro x hx
    obtain ⟨hlaw, hfits⟩ := h x.1 x.2 (mem_radicandsOf.1 hx)
    exact ⟨hlaw.1, hfits.1, hfits.2⟩
  have hpos := restProduct_radicandsOf_pos fun q k hroot => (h q k hroot).1.1
  obtain ⟨hsplit, hout, hin⟩ :=
    PerfectPower.extractWith_factorization PerfectPower.estimate hpos n
  rw [rootValue, prod_root_zpow v hn hradicands, rootShare_eq]
  unfold PerfectPower.extract
  -- the pair that is extracted matters only through its laws
  generalize PerfectPower.extractWith PerfectPower.estimate
    (restProduct n (radicandsOf n factors)) n = r at hsplit hout hin ⊢
  have hroot : v (.root (restProduct n (radicandsOf n factors)) n) = r.1 * v (.root r.2 n) := by
    rw [← hsplit, v.root_pow_mul hout hin hn]
  rw [hroot, Share.value]
  split
  · next hone =>
    rw [hone, v.root_one hn, Monomial.factorsValue_nil]
    push_cast
    simp
  · rw [Monomial.factorsValue_cons, Monomial.factorsValue_nil]
    push_cast
    simp [mul_assoc]

/-! ### Putting the shares together -/

theorem value_share [CharZero K] {power : Form → Int → Option Form} {x : Atom × Int}
    (hpower : PowersSound v power x) (hlaw : v.Lawful x.1) (hfits : Fits x) :
    (share power x).value v = plainValue v x := by
  obtain ⟨a, k⟩ := x
  cases a with
  | imaginaryUnit => exact value_unitShare v k
  | radical f n => exact value_radicalShare v hpower hlaw hfits
  | reciprocal f => exact value_reciprocalShare v hpower hlaw hfits
  | root q n => simp [share, Share.value, plainValue, atPlain, Monomial.factorsValue_nil]
  | _ =>
    rw [share, Share.value_kept, Monomial.factorsValue_cons, Monomial.factorsValue_nil,
      clamp32_eq hfits.isInt32, mul_one]
    all_goals first | rfl | simp

/-- The shares of a product of atoms have its value. -/
theorem value_shares [CharZero K] {power : Form → Int → Option Form}
    {factors : List (Atom × Int)} (hpower : ∀ x ∈ factors, PowersSound v power x)
    (hlaw : ∀ x ∈ factors, v.Lawful x.1) (hfits : ∀ x ∈ factors, Fits x) :
    ((shares power factors).map (Share.value v)).prod = Monomial.factorsValue v factors := by
  have hplain : (factors.map (share power)).map (Share.value v) = factors.map (plainValue v) := by
    rw [List.map_map]
    exact List.map_congr_left fun x hx => value_share v (hpower x hx) (hlaw x hx) (hfits x hx)
  have hroots : ((rootIndices factors).map (rootShare factors)).map (Share.value v) =
      (rootIndices factors).map (rootValue v factors) := by
    rw [List.map_map]
    refine List.map_congr_left fun n hn => ?_
    obtain ⟨q, k, hmem⟩ := mem_rootIndices.1 hn
    exact value_rootShare v (fun r l hr => ⟨hlaw _ hr, hfits _ hr⟩) (hlaw _ hmem).2
  rw [shares, List.map_append, List.prod_append, hplain, hroots]
  exact (prod_eq_plain_mul_roots _ (nodup_rootIndices factors)
    fun q n k hmem => mem_rootIndices.2 ⟨q, k, hmem⟩).symm

/-- The coefficient of a product, given the shares of its factors. -/
def sharedCoefficient (c : Rat) (parts : List Share) : Rat :=
  parts.foldl (fun q s => q * s.coefficient) c

/-- The term that stays of a product, given the shares of its factors. -/
def sharedTerm (c : Rat) (parts : List Share) : Form :=
  ofTerm ⟨Monomial.collectFactors (parts.flatMap Share.kept)⟩ (sharedCoefficient c parts)

theorem normalizeWith_eq (multiply : Form → Form → Form) (power : Form → Int → Option Form)
    {c : Rat} (hc : c ≠ 0) (factors : List (Atom × Int)) :
    normalizeWith multiply power c factors =
      let parts := shares power (Monomial.collectFactors factors)
      let expanded := (parts.flatMap Share.expanded).foldl multiply one
      if expanded.isOne then sharedTerm c parts
      else multiply (sharedTerm c parts) expanded := by
  rw [normalizeWith, if_neg hc]
  rfl

theorem normalize_zero_coefficient (n : Nat) (factors : List (Atom × Int)) :
    normalize n 0 factors = zero := by
  cases n <;> simp [normalize, normalizeWith]

theorem sharedCoefficient_eq (c : Rat) (parts : List Share) :
    sharedCoefficient c parts = c * (parts.map Share.coefficient).prod := by
  unfold sharedCoefficient
  induction parts generalizing c with
  | nil => simp
  | cons s parts ih =>
    rw [List.foldl_cons, ih, List.map_cons, List.prod_cons, mul_assoc]

theorem prod_value_shares [CharZero K] (parts : List Share) :
    (parts.map (Share.value v)).prod =
      ((parts.map Share.coefficient).prod : Rat) *
        Monomial.factorsValue v (parts.flatMap Share.kept) *
        ((parts.flatMap Share.expanded).map (Form.value v)).prod := by
  induction parts with
  | nil => simp [Monomial.factorsValue_nil]
  | cons s parts ih =>
    rw [List.map_cons, List.prod_cons, ih, List.map_cons, List.prod_cons, List.flatMap_cons,
      List.flatMap_cons, Monomial.factorsValue_append, List.map_append, List.prod_append,
      Share.value]
    push_cast
    ring

/-! ### What is multiplied out -/

/-- Nothing is multiplied out of the factor. -/
def Stable : Atom × Int → Prop
  | (.radical _ n, k) => k / n = 0
  | (.reciprocal _, k) => k < 0 → (maxExpandedPower : Int) < -k
  | _ => True

/-- Shares are those of the factors and of the indices of roots. -/
theorem mem_shares {power : Form → Int → Option Form} {factors : List (Atom × Int)} {s : Share}
    (hs : s ∈ shares power factors) :
    (∃ x ∈ factors, s = share power x) ∨ ∃ n ∈ rootIndices factors, s = rootShare factors n := by
  rcases List.mem_append.1 hs with hs | hs
  · obtain ⟨x, hx, rfl⟩ := List.mem_map.1 hs
    exact .inl ⟨x, hx, rfl⟩
  · obtain ⟨n, hn, rfl⟩ := List.mem_map.1 hs
    exact .inr ⟨n, hn, rfl⟩

/-- What is multiplied out comes from one factor. -/
theorem exists_share_of_mem_expanded {power : Form → Int → Option Form}
    {factors : List (Atom × Int)} {g : Form}
    (hg : g ∈ (shares power factors).flatMap Share.expanded) :
    ∃ x ∈ factors, g ∈ (share power x).expanded := by
  obtain ⟨s, hs, hg⟩ := List.mem_flatMap.1 hg
  rcases mem_shares hs with ⟨x, hx, rfl⟩ | ⟨n, -, rfl⟩
  · exact ⟨x, hx, hg⟩
  · cases hg

/-- What is multiplied out is a power of a radicand or of the sum in a reciprocal. -/
theorem exists_of_mem_expanded {power : Form → Int → Option Form} {factors : List (Atom × Int)}
    {g : Form} (hg : g ∈ (shares power factors).flatMap Share.expanded) :
    (∃ f n k, (Atom.radical f n, k) ∈ factors ∧ power f (k / (n : Nat)) = some g) ∨
      ∃ f k, (Atom.reciprocal f, k) ∈ factors ∧ k < 0 ∧ power f (-k) = some g := by
  obtain ⟨⟨a, k⟩, hx, hg⟩ := exists_share_of_mem_expanded hg
  cases a with
  | radical f n =>
    rw [share, radicalShare] at hg
    split at hg
    · next p hp =>
      obtain rfl := List.mem_singleton.1 hg
      exact .inl ⟨f, n, k, hx, hp⟩
    · cases hg
  | reciprocal f =>
    rw [share, reciprocalShare] at hg
    split at hg
    · next hneg =>
      split at hg
      · next p hp =>
        obtain rfl := List.mem_singleton.1 hg
        exact .inr ⟨f, k, hx, hneg, hp⟩
      · cases hg
    · cases hg
  | _ => cases hg

/-! ### The atoms that stay -/

theorem atom_of_mem_kept_share {power : Form → Int → Option Form} {x y : Atom × Int}
    (h : y ∈ (share power x).kept) : y.1 = x.1 := by
  obtain ⟨a, k⟩ := x
  cases a with
  | imaginaryUnit =>
    simp only [share, unitShare] at h
    split at h
    · rw [List.mem_singleton.1 h]
    · cases h
  | root q n => cases h
  | radical f n =>
    simp only [share, radicalShare] at h
    split at h
    · simp only at h
      split at h
      · cases h
      · rw [List.mem_singleton.1 h]
    · rw [List.mem_singleton.1 h]
  | reciprocal f =>
    simp only [share, reciprocalShare] at h
    split at h
    · split at h
      · cases h
      · rw [List.mem_singleton.1 h]
    · rw [List.mem_singleton.1 h]
  | _ => rw [List.mem_singleton.1 h]

theorem eq_of_mem_kept_rootShare {factors : List (Atom × Int)} {n : Nat} {y : Atom × Int}
    (h : y ∈ (rootShare factors n).kept) :
    y = (.root (PerfectPower.extract (restProduct n (radicandsOf n factors)) n).2 n, 1) ∧
      (PerfectPower.extract (restProduct n (radicandsOf n factors)) n).2 ≠ 1 := by
  rw [rootShare_eq] at h
  dsimp only at h
  split at h
  · cases h
  · next hne => exact ⟨List.mem_singleton.1 h, hne⟩

/-- What stays of a product stays of one factor, or it is the root of those with one index. -/
theorem exists_of_mem_kept {power : Form → Int → Option Form} {factors : List (Atom × Int)}
    {y : Atom × Int} (hy : y ∈ (shares power factors).flatMap Share.kept) :
    (∃ x ∈ factors, y ∈ (share power x).kept) ∨
      ∃ n ∈ rootIndices factors, y ∈ (rootShare factors n).kept := by
  obtain ⟨s, hs, hy⟩ := List.mem_flatMap.1 hy
  rcases mem_shares hs with ⟨x, hx, rfl⟩ | ⟨n, hn, rfl⟩
  · exact .inl ⟨x, hx, hy⟩
  · exact .inr ⟨n, hn, hy⟩

/-- What holds of roots and of the atoms of a product holds of the atoms that stay. -/
theorem forall_kept {P : Atom → Prop} (hroot : ∀ q n, P (.root q n))
    {power : Form → Int → Option Form} {factors : List (Atom × Int)} (h : ∀ x ∈ factors, P x.1) :
    ∀ y ∈ (shares power factors).flatMap Share.kept, P y.1 := by
  intro y hy
  rcases exists_of_mem_kept hy with ⟨x, hx, hy⟩ | ⟨n, -, hy⟩
  · rw [atom_of_mem_kept_share hy]
    exact h x hx
  · rw [(eq_of_mem_kept_rootShare hy).1]
    exact hroot _ n

/-- Every atom that a share keeps has a value other than zero. -/
theorem ne_zero_of_mem_kept [CharZero K] {power : Form → Int → Option Form}
    {factors : List (Atom × Int)} (hlaw : ∀ x ∈ factors, v.Lawful x.1) {s : Share}
    (hs : s ∈ shares power factors) {y : Atom × Int} (hy : y ∈ s.kept) : v y.1 ≠ 0 := by
  rcases mem_shares hs with ⟨x, hx, rfl⟩ | ⟨n, hn, rfl⟩
  · rw [atom_of_mem_kept_share hy]
    exact (hlaw x hx).ne_zero
  · obtain ⟨q, k, hmem⟩ := mem_rootIndices.1 hn
    -- the root that stays is one of a product of positive numbers
    rw [(eq_of_mem_kept_rootShare hy).1]
    refine v.root_ne_zero ?_ (hlaw _ hmem).2
    have hpos := restProduct_radicandsOf_pos fun q k hroot => (hlaw (.root q n, k) hroot).1
    exact (PerfectPower.extractWith_factorization _ hpos n).2.2

theorem value_sharedTerm [CharZero K] (power : Form → Int → Option Form)
    {factors : List (Atom × Int)} (hpower : ∀ x ∈ factors, PowersSound v power x)
    (hlaw : ∀ x ∈ factors, v.Lawful x.1) (hfits : ∀ x ∈ factors, Fits x) (c : Rat) :
    (sharedTerm c (shares power factors)).value v *
        (((shares power factors).flatMap Share.expanded).map (Form.value v)).prod =
      c * Monomial.factorsValue v factors := by
  have hkept : ∀ x ∈ (shares power factors).flatMap Share.kept, v x.1 ≠ 0 := by
    intro x hx
    obtain ⟨s, hs, hx⟩ := List.mem_flatMap.1 hx
    exact ne_zero_of_mem_kept v hlaw hs hx
  rw [sharedTerm, value_ofTerm, Monomial.value, Monomial.factorsValue_collectFactors hkept,
    sharedCoefficient_eq, ← value_shares v hpower hlaw hfits, prod_value_shares]
  push_cast
  ring

end Form

end Resolvent

import Resolvent.Form.Recursion
import Resolvent.Proofs.Form.Budget
import Resolvent.Proofs.Form.Stored

/-!
# Normalisation returns

Normalising, multiplying, raising to powers and inverting call one another without a bound on the
recursion (`Form.Call.Returns`).  They return what the library computes with a number of unfoldings
(`Form.Call.InRange.returns`), as far as exponents and their opposites are words of 64 bits.

What makes the recursion end is the level of atoms.  A product is multiplied out of a radical or a
reciprocal into forms of lower levels, and an inverse stays below the level of the reciprocal that it
may become.  So the induction is on the number `r` of unfoldings that a product needs: where all
products that need `r` of them are normalised (`Form.ReturnsWithin`), multiplication, powers and
inverses of forms up to a level return, and with them the products that need one unfolding more
(`Form.returnsWithin_succ`).  Exponents stay words on the way, since those of stored forms are words
of 32 bits and are multiplied by 32 at most.
-/

namespace Resolvent

/-- The exponents that an atom has in a stored monomial add up to a word of 32 bits. -/
theorem Monomial.Stored.exponentSum_le {m : Monomial} (hm : m.Stored) (a : Atom) :
    -2147483648 ≤ Monomial.exponentSum a m.factors ∧
      Monomial.exponentSum a m.factors ≤ 2147483647 := by
  by_cases h : ∃ k, (a, k) ∈ m.factors
  · obtain ⟨k, hk⟩ := h
    rw [Monomial.exponentSum_eq_of_mem (x := (a, k)) hm.distinct hk]
    simpa [Width.isInt32] using (hm.exponent _ hk).2
  · rw [Monomial.exponentSum_eq_zero fun x hx heq => h ⟨x.2, by rwa [← heq]⟩]
    decide

namespace Form

/-! ### Runs -/

namespace Procedure

variable {α β : Type} {x : Procedure α} {a : α}

/-- The procedure ends, when there is room enough for the calls nested in it. -/
def Ends (x : Procedure α) (a : α) : Prop := ∃ room, x.answerWith (Call.run room) = some a

theorem answerWith_bind (answer : (c : Call) → Option c.Result) (x : Procedure α)
    (next : α → Procedure β) :
    (x >>= next).answerWith answer =
      (x.answerWith answer).bind fun a => (next a).answerWith answer := by
  change (x.andThen next).answerWith answer = _
  induction x with
  | done a => rfl
  | ask c after ih =>
    rw [andThen, answerWith, answerWith]
    cases answer c with
    | none => rfl
    | some r => exact ih r

theorem answerWith_ask (answer : (c : Call) → Option c.Result) (c : Call) :
    (ask c done).answerWith answer = answer c := by
  rw [answerWith]
  cases answer c <;> rfl

/-- More answers leave the results as they are. -/
theorem answerWith_mono {answer answer' : (c : Call) → Option c.Result}
    (h : ∀ c r, answer c = some r → answer' c = some r)
    (hx : x.answerWith answer = some a) : x.answerWith answer' = some a := by
  induction x with
  | done b => exact hx
  | ask c next ih =>
    rw [answerWith] at hx ⊢
    cases hc : answer c with
    | none => simp [hc] at hx
    | some r =>
      rw [hc] at hx
      rw [h c r hc]
      exact ih r hx

end Procedure

namespace Call

variable {c : Call} {r s : c.Result} {n m : Nat}

theorem run_succ (h : c.run n = some r) : c.run (n + 1) = some r := by
  induction n generalizing c with
  | zero => cases h
  | succ n ih => exact Procedure.answerWith_mono (fun c r hc => ih hc) h

/-- More room leaves the answers as they are. -/
theorem run_mono (hnm : n ≤ m) (h : c.run n = some r) : c.run m = some r := by
  induction hnm with
  | refl => exact h
  | step _ ih => exact run_succ ih

theorem returns_iff_ends : c.Returns r ↔ c.body.Ends r := by
  constructor
  · rintro ⟨room, h⟩
    cases room with
    | zero => cases h
    | succ room => exact ⟨room, h⟩
  · rintro ⟨room, h⟩
    exact ⟨room + 1, h⟩

/-- A call returns one answer at most. -/
theorem Returns.unique (hr : c.Returns r) (hs : c.Returns s) : r = s := by
  obtain ⟨n, hr⟩ := hr
  obtain ⟨m, hs⟩ := hs
  have hmax := run_mono (le_max_left n m) hr
  rw [run_mono (le_max_right n m) hs] at hmax
  exact (Option.some.inj hmax).symm

/-- What a call returns is all that it returns. -/
theorem Returns.iff_eq (hr : c.Returns r) (s : c.Result) : c.Returns s ↔ s = r :=
  ⟨fun hs => hs.unique hr, fun hs => hs ▸ hr⟩

end Call

namespace Procedure

variable {α β : Type} {x : Procedure α} {a : α} {b : β}

theorem ends_pure (a : α) : (pure a : Procedure α).Ends a := ⟨0, rfl⟩

theorem ends_ask {c : Call} {r : c.Result} (h : c.Returns r) : (ask c done).Ends r := by
  obtain ⟨room, h⟩ := h
  exact ⟨room, (answerWith_ask _ c).trans h⟩

theorem ends_normalize {q : Rat} {factors : List (Atom × Int)} {p : Form}
    (h : (Call.normalize q factors).Returns p) : (normalize q factors).Ends p := ends_ask h

theorem ends_multiply {f g p : Form} (h : (Call.multiply f g).Returns p) :
    (multiply f g).Ends p := ends_ask h

theorem ends_power_iff {f : Form} {k : Int} {p : Option Form} :
    (power f k).Ends p ↔ (Call.power f k).Returns p :=
  ⟨fun ⟨room, h⟩ => ⟨room, (answerWith_ask _ _).symm.trans h⟩, ends_ask⟩

theorem ends_power {f : Form} {k : Int} {p : Option Form} (h : (Call.power f k).Returns p) :
    (power f k).Ends p := ends_power_iff.2 h

theorem ends_invert {budget : Nat} {f : Form} {i : Option Form}
    (h : (Call.invert budget f).Returns i) : (invert budget f).Ends i := ends_ask h

theorem Ends.bind {next : α → Procedure β} (hx : x.Ends a) (hnext : (next a).Ends b) :
    (x >>= next).Ends b := by
  obtain ⟨n, hx⟩ := hx
  obtain ⟨m, hnext⟩ := hnext
  refine ⟨max n m, ?_⟩
  rw [answerWith_bind, answerWith_mono (fun c r => Call.run_mono (le_max_left n m)) hx]
  exact answerWith_mono (fun c r => Call.run_mono (le_max_right n m)) hnext

theorem Ends.unique (ha : x.Ends a) {a' : α} (ha' : x.Ends a') : a = a' := by
  obtain ⟨n, ha⟩ := ha
  obtain ⟨m, ha'⟩ := ha'
  have hmax := answerWith_mono (fun c r => Call.run_mono (le_max_left n m)) ha
  rw [answerWith_mono (fun c r => Call.run_mono (le_max_right n m)) ha'] at hmax
  exact (Option.some.inj hmax).symm

theorem ends_pure_iff {a' : α} : (pure a : Procedure α).Ends a' ↔ a' = a :=
  ⟨fun h => h.unique (ends_pure a), fun h => h ▸ ends_pure a⟩

theorem ends_bind_iff {next : α → Procedure β} :
    (x >>= next).Ends b ↔ ∃ a, x.Ends a ∧ (next a).Ends b := by
  constructor
  · rintro ⟨room, h⟩
    rw [answerWith_bind] at h
    obtain ⟨a, ha, hb⟩ := Option.bind_eq_some_iff.1 h
    exact ⟨a, ⟨room, ha⟩, room, hb⟩
  · rintro ⟨a, ha, hb⟩
    exact ha.bind hb

theorem ends_each {γ : Type} {f : γ → Procedure β} {g : γ → β} {xs : List γ} (results : List β)
    (h : ∀ x ∈ xs, (f x).Ends (g x)) : (each f results xs).Ends (results.reverse ++ xs.map g) := by
  induction xs generalizing results with
  | nil =>
    rw [List.map_nil, List.append_nil]
    exact ends_pure _
  | cons x xs ih =>
    have hrest := ih (g x :: results) fun y hy => h y (List.mem_cons_of_mem x hy)
    rw [List.reverse_cons, List.append_assoc] at hrest
    exact (h x List.mem_cons_self).bind hrest

end Procedure

variable {f g : Form} {c : Rat} {k : Int} {factors : List (Atom × Int)} {d n r L : Nat}

/-! ### The equations of the recursion -/

theorem agreeUpTo_ofFactors {N : Nat} (hN : 4 * d + 1 ≤ N) :
    AgreeUpTo (2 * d) (normalize N) ofFactors := fun c _ h =>
  normalize_eq_ofFactors (fun x hx => Atom.depth_le_of_level_le (h x hx)) hN c

theorem keepsLevel_ofFactors : KeepsLevel ofFactors := fun L c factors h =>
  keepsLevel_normalize _ L c factors h

theorem pow?_eq_powWith (f : Form) (k : Int) : f.pow? k = powWith ofFactors f k :=
  (agreeUpTo_ofFactors (d := f.depth + 1) (by unfold unfoldings; omega)).powWith
    (keepsLevel_normalize _) (by split <;> omega)

theorem inverse?_eq_inverseWith (f : Form) :
    f.inverse? = inverseWith ofFactors maxRationalizations f :=
  (agreeUpTo_ofFactors (d := f.depth + 1) (by unfold unfoldings; omega)).inverseWith
    (keepsLevel_normalize _) (d := f.depth) (by omega) (levelAtMost_of_depth le_rfl) _

theorem mul_eq : mul = mulWith ofFactors := funext fun f => funext fun g => mul_eq_mulWith f g

theorem pow?_eq : pow? = powWith ofFactors := funext fun f => funext fun k => pow?_eq_powWith f k

/-- A product of atoms is normalised with the products and powers of forms, to any depth. -/
theorem ofFactors_eq_normalizeWith (c : Rat) (factors : List (Atom × Int)) :
    ofFactors c factors = normalizeWith mul pow? c factors := by
  rw [mul_eq, pow?_eq, ofFactors]
  have hlevel : ∀ x ∈ Monomial.collectFactors factors,
      x.1.level ≤ 2 * Monomial.depthFactors factors := fun x hx =>
    level_le_of_mem_collectFactors (fun y hy => y.1.level_le.trans (Nat.mul_le_mul_left 2
      (Monomial.depthFactors_le_iff.1 le_rfl y hy))) hx
  generalize Monomial.depthFactors factors = d at hlevel ⊢
  have hagree : AgreeUpTo (2 * d) (normalize (4 * d + 15)) ofFactors :=
    agreeUpTo_ofFactors (by omega)
  have hkeeps := keepsLevel_normalize (4 * d + 15)
  have hone := levelAtMost_one (2 * d)
  have hexpanded : ∀ g ∈ (shares (powWith (normalize (4 * d + 15)))
      (Monomial.collectFactors factors)).flatMap Share.expanded, g.LevelAtMost (2 * d) := fun g hg =>
    levelAtMost_of_mem_expanded hkeeps (fun x hx => (hlevel x hx).trans (Nat.le_succ _)) hg
  have hshare : ∀ x ∈ Monomial.collectFactors factors,
      share (powWith (normalize (4 * d + 15))) x = share (powWith ofFactors) x := by
    intro x hx
    have hx' := hlevel x hx
    have hsettles : SettlesWithin (4 * d + 1) x := .inr (.inl (by omega))
    exact hsettles.share_eq (by rwa [show 4 * d / 2 = 2 * d by omega]) hkeeps
  exact normalizeWith_congr (congrArg (· ++ _) (List.map_congr_left hshare))
    (hagree.foldl_mulWith hkeeps hone hexpanded) fun _ =>
      hagree.mulWith (levelAtMost_sharedTerm _ hlevel c) (hone.foldl_mulWith hkeeps hexpanded)

/-! ### Values and ranges of calls -/

/-- What the library computes for a call. -/
def Call.value : (c : Call) → c.Result
  | normalize c factors => ofFactors c factors
  | multiply f g => mul f g
  | power f k => pow? f k
  | invert budget f => inverseWith ofFactors budget f

/-- The value lies strictly between the least word of 64 bits and its opposite. -/
def InWords (k : Int) : Prop := -9223372036854775808 < k ∧ k < 9223372036854775808

/-- The exponents of a call, once those of each atom are added up, and their opposites are words of
64 bits. -/
def Call.InRange : Call → Prop
  | normalize _ factors => (∀ x ∈ factors, x.1.Stored) ∧
      ∀ x ∈ Monomial.collectFactors factors, InWords x.2
  | multiply f g => f.Stored ∧ g.Stored
  | power f k => f.Stored ∧ InWords k
  | invert _ f => f.Stored

theorem wrap64_of_inWords (h : InWords k) : Width.wrap64 k = k := by
  unfold InWords at h
  exact Width.wrap64_of_isInt64 (Width.isInt64_iff.2 (by omega))

theorem words_of_inWords (h : ∀ x ∈ factors, InWords x.2) : words factors = factors := by
  refine (List.map_congr_left (g := id) fun x hx => ?_).trans (List.map_id factors)
  rw [wrap64_of_inWords (h x hx), id]

/-! ### Stored forms -/

theorem normalizesInto_ofFactors : NormalizesInto Atom.Stored Monomial.Stored ofFactors :=
  fun c _ h => monomialsIn_ofFactors closed_stored c h

theorem stored_one : one.Stored := stored_iff.2 (monomialsIn_ofRat closed_stored.one 1)

theorem Stored.mul (hf : f.Stored) (hg : g.Stored) : (mul f g).Stored :=
  stored_iff.2 ((stored_iff.1 hf).mul closed_stored (stored_iff.1 hg))

theorem Stored.conjugate (hf : f.Stored) (h : f.rationalizingConjugate? = some g) : g.Stored :=
  stored_iff.2 ((stored_iff.1 hf).conjugate h)

theorem Stored.inverseWith (hf : f.Stored) {budget : Nat}
    (h : inverseWith ofFactors budget f = some g) : g.Stored :=
  stored_iff.2 ((stored_iff.1 hf).inverseWith closed_stored normalizesInto_ofFactors h)

theorem Stored.pow? (hf : f.Stored) (h : f.pow? k = some g) : g.Stored :=
  stored_iff.2 ((stored_iff.1 hf).pow closed_stored h)

theorem Stored.monomial (hf : f.Stored) {t : Monomial × Rat} (ht : t ∈ f.terms) : t.1.Stored :=
  stored_iff.1 hf t ht

theorem Stored.singleTerm (hf : f.Stored) {m : Monomial} {q : Rat}
    (h : f.singleTerm? = some (m, q)) : m.Stored :=
  hf.monomial (t := (m, q)) (by rw [terms_of_singleTerm? h]; exact List.mem_singleton_self _)

/-- The exponents of two stored monomials add up to words. -/
theorem inWords_append {m l : Monomial} (hm : m.Stored) (hl : l.Stored) {x : Atom × Int}
    (hx : x ∈ Monomial.collectFactors (m.factors ++ l.factors)) : InWords x.2 := by
  have hsum := (Monomial.mem_collectFactors.1 hx).2
  rw [Monomial.exponentSum_append] at hsum
  have hm' := hm.exponentSum_le x.1
  have hl' := hl.exponentSum_le x.1
  unfold InWords
  omega

/-- The exponents of a stored monomial, times a factor of 32 at most, are words. -/
theorem inWords_mul {m : Monomial} (hm : m.Stored) (hk : k.natAbs ≤ maxExpandedPower)
    {x : Atom × Int} (hx : x ∈ m.factors) : InWords (x.2 * k) := by
  have hword : -2147483648 ≤ x.2 ∧ x.2 ≤ 2147483647 := by
    simpa [Width.isInt32] using (hm.exponent x hx).2
  unfold maxExpandedPower at hk
  have hlow : -32 ≤ k ∧ k ≤ 32 := by omega
  unfold InWords
  constructor <;> nlinarith

theorem inWords_scaleExponents {m : Monomial} (hm : m.Stored) (hk : k.natAbs ≤ maxExpandedPower) :
    ∀ x ∈ m.scaleExponents k, InWords x.2 := by
  intro x hx
  obtain ⟨y, hy, rfl⟩ := List.mem_map.1 hx
  exact inWords_mul hm hk hy

theorem inRange_normalize_scaleExponents {m : Monomial} (hm : m.Stored)
    (hk : k.natAbs ≤ maxExpandedPower) (c : Rat) :
    (Call.normalize c (m.scaleExponents k)).InRange := by
  refine ⟨fun x hx => ?_, fun x hx => ?_⟩
  · obtain ⟨y, hy, rfl⟩ := List.mem_map.1 hx
    exact hm.atoms y hy
  · have hpairwise : (m.scaleExponents k).Pairwise fun x y => x.1 ≠ y.1 :=
      List.pairwise_map.2 hm.distinct
    exact inWords_scaleExponents hm hk x
      ((Monomial.mem_collectFactors_of_pairwise hpairwise).1 hx).2

/-! ### Calls that return -/

open Procedure (ends_pure ends_normalize ends_multiply ends_power ends_invert ends_each)

theorem returns_multiply (h : ∀ s ∈ f.terms, ∀ t ∈ g.terms, s.1.isOne = false →
      t.1.isOne = false → (Call.normalize (s.2 * t.2) (s.1.factors ++ t.1.factors)).Returns
        (ofFactors (s.2 * t.2) (s.1.factors ++ t.1.factors))) :
    (Call.multiply f g).Returns (mul f g) := by
  have hterms : ∀ x ∈ f.terms.flatMap fun s => g.terms.map fun t => (s, t),
      (termCalls x).Ends (mulTermWith ofFactors x.1 x.2) := by
    intro x hx
    obtain ⟨s, hs, hx⟩ := List.mem_flatMap.1 hx
    obtain ⟨t, ht, rfl⟩ := List.mem_map.1 hx
    unfold termCalls mulTermWith
    dsimp only
    split_ifs with ht1 hs1
    · exact ends_pure _
    · exact ends_pure _
    · exact ends_normalize (h s hs t ht (Bool.eq_false_iff.2 hs1) (Bool.eq_false_iff.2 ht1))
  refine Call.returns_iff_ends.2 ((ends_each [] hterms).bind ?_)
  rw [mul_eq_mulWith, mulWith, List.map_flatMap]
  simp only [List.map_map]
  exact ends_pure _

/-- The squares of a base are multiplied, where products of a class return and belong to it. -/
theorem ends_squareCalls {C : Form → Prop}
    (hC : ∀ f g, C f → C g → (Call.multiply f g).Returns (mul f g) ∧ C (mul f g)) {result base : Form}
    (hresult : C result) (hbase : C base) (n : Nat) :
    (squareCalls result base n).Ends (powLoop mul result base n) := by
  induction n using Nat.strongRecOn generalizing result base with
  | ind n ih =>
    rw [squareCalls, powLoop]
    by_cases hn : n = 0
    · rw [dif_pos hn, if_pos hn]
      exact ends_pure _
    · rw [dif_neg hn, if_neg hn]
      have hnext : (if n % 2 = 1 then Procedure.multiply result base else pure result).Ends
            (if n % 2 = 1 then mul result base else result) ∧
          C (if n % 2 = 1 then mul result base else result) := by
        split_ifs
        · exact (hC _ _ hresult hbase).imp_left ends_multiply
        · exact ⟨ends_pure _, hresult⟩
      generalize (if n % 2 = 1 then mul result base else result) = next at hnext ⊢
      refine hnext.1.bind ?_
      dsimp only
      split_ifs
      · exact ends_pure _
      · have hsquare := hC _ _ hbase hbase
        exact (ends_multiply hsquare.1).bind (ih (n / 2) (by omega) hnext.2 hsquare.2)

/-! ### Powers and inverses -/

theorem returns_power_iff {p : Option Form} :
    (Call.power f k).Returns p ↔ (powerCalls f k).Ends p := Call.returns_iff_ends

theorem returns_invert_iff {budget : Nat} {i : Option Form} :
    (Call.invert budget f).Returns i ↔ (invertCalls budget f).Ends i := Call.returns_iff_ends

theorem returns_normalize_iff {p : Form} :
    (Call.normalize c factors).Returns p ↔ (normalizeCalls c factors).Ends p :=
  Call.returns_iff_ends

theorem wrap64_natAbs (h : InWords k) : Width.wrap64 k.natAbs = k.natAbs :=
  wrap64_of_inWords (by unfold InWords at *; omega)

theorem InWords.neg (h : InWords k) : InWords (-k) := by
  unfold InWords at *
  omega

theorem inWords_of_natAbs_le (h : k.natAbs ≤ maxExpandedPower) : InWords k := by
  unfold InWords
  unfold maxExpandedPower at h
  omega

theorem returns_power_of_lt (f : Form) (hk : InWords k) (hlt : maxExpandedPower < k.natAbs) :
    (Call.power f k).Returns none := by
  rw [returns_power_iff, powerCalls, wrap64_natAbs hk, if_pos (by exact_mod_cast hlt)]
  exact ends_pure none

/-- What a power of an exponent that is not too large does. -/
theorem powerCalls_of_le (f : Form) (h : k.natAbs ≤ maxExpandedPower) :
    powerCalls f k =
      if k < 0 then Procedure.invert maxRationalizations f >>= inversePowerCalls (-k)
      else if k = 0 then return some one
      else positivePowerCalls f k := by
  have hk := inWords_of_natAbs_le h
  rw [powerCalls, wrap64_natAbs hk, if_neg (by exact_mod_cast h.not_gt), wrap64_of_inWords hk.neg]

theorem returns_power_zero (f : Form) : (Call.power f 0).Returns (some one) := by
  rw [returns_power_iff, powerCalls_of_le f (Nat.zero_le _)]
  exact ends_pure _

theorem returns_invert_zero (budget : Nat) : (Call.invert budget zero).Returns none :=
  returns_invert_iff.2 (ends_pure none)

/-- A power of zero with a negative exponent has no expansion. -/
theorem returns_power_neg_zero (hk : InWords k) (hneg : k < 0) :
    (Call.power zero k).Returns none := by
  rcases lt_or_ge maxExpandedPower k.natAbs with hlt | hle
  · exact returns_power_of_lt zero hk hlt
  · rw [returns_power_iff, powerCalls_of_le zero hle, if_pos hneg]
    exact (ends_invert (returns_invert_zero _)).bind (ends_pure none)

/-- All products that need at most `r` unfoldings after the first are normalised. -/
def ReturnsWithin (r : Nat) : Prop :=
  ∀ c factors, (Call.normalize c factors).InRange →
    (∀ x ∈ Monomial.collectFactors factors, SettlesWithin r x) →
      (Call.normalize c factors).Returns (ofFactors c factors)

section

variable (hr : ReturnsWithin r)

include hr

theorem returns_multiply_of_level (hf : f.Stored) (hg : g.Stored) (hfL : f.LevelAtMost L)
    (hgL : g.LevelAtMost L) (hL : 2 * L ≤ r) : (Call.multiply f g).Returns (mul f g) := by
  refine returns_multiply fun s hs t ht _ _ => hr _ _ ⟨fun x hx => ?_, fun x hx =>
    inWords_append (hf.monomial hs) (hg.monomial ht) hx⟩ fun x hx => .inr (.inl ?_)
  · exact (List.mem_append.1 hx).elim ((hf.monomial hs).atoms x) ((hg.monomial ht).atoms x)
  · have hlevel := level_le_of_mem_collectFactors (fun y hy =>
      (List.mem_append.1 hy).elim (hfL s hs y) (hgL t ht y)) hx
    omega

theorem returns_normalize_scaleExponents (hf : f.Stored) (hfL : f.LevelAtMost L) (hL : 2 * L ≤ r)
    {m : Monomial} {q : Rat} (hm : f.singleTerm? = some (m, q)) (hk : k.natAbs ≤ maxExpandedPower)
    (c : Rat) :
    (Call.normalize c (words (m.scaleExponents k))).Returns (ofFactors c (m.scaleExponents k)) := by
  rw [words_of_inWords (inWords_scaleExponents (hf.singleTerm hm) hk)]
  refine hr _ _ (inRange_normalize_scaleExponents (hf.singleTerm hm) hk c) fun x hx =>
    .inr (.inl ?_)
  have hlevel := level_le_of_mem_collectFactors (L := L) (fun y hy => ?_) hx
  · omega
  · obtain ⟨z, hz, rfl⟩ := List.mem_map.1 hy
    exact hfL (m, q) (by simp [terms_of_singleTerm? hm]) z hz

/-- Powers with natural exponents return. -/
theorem returns_power_of_nonneg (hf : f.Stored) (hfL : f.LevelAtMost L) (hL : 2 * L ≤ r)
    (hk : InWords k) (hpos : 0 ≤ k) : (Call.power f k).Returns (f.pow? k) := by
  rw [pow?_eq_powWith, powWith]
  rcases lt_or_ge maxExpandedPower k.natAbs with hlt | hle
  · rw [if_pos hlt]
    exact returns_power_of_lt f hk hlt
  · rw [if_neg hle.not_gt, if_neg hpos.not_gt, returns_power_iff, powerCalls_of_le f hle,
      if_neg hpos.not_gt, powNatWith]
    by_cases hzero : k = 0
    · subst hzero
      exact ends_pure _
    · rw [if_neg hzero, positivePowerCalls, if_neg (Int.natAbs_ne_zero.2 hzero),
        Int.natAbs_of_nonneg hpos]
      cases hm : f.singleTerm? with
      | some t =>
        exact (ends_normalize (returns_normalize_scaleExponents hr hf hfL hL hm hle _)).bind
          (ends_pure _)
      | none =>
        dsimp only
        rw [← mul_eq]
        refine (ends_squareCalls (C := fun g => g.Stored ∧ g.LevelAtMost L) (fun g h hg hh => ?_)
          ⟨stored_one, levelAtMost_one L⟩ ⟨hf, hfL⟩ k.natAbs).bind (ends_pure _)
        refine ⟨returns_multiply_of_level hr hg.1 hh.1 hg.2 hh.2 hL, hg.1.mul hh.1, ?_⟩
        rw [mul_eq_mulWith]
        exact hg.2.mulWith keepsLevel_ofFactors hh.2

/-- The reciprocal of a sum needs no unfolding. -/
theorem ends_reciprocalCalls (hf : f.Stored) :
    (reciprocalCalls f).Ends (some (reciprocalOf ofFactors f)) := by
  refine (ends_normalize (hr _ _ ⟨fun x hx => ?_, fun x hx => ?_⟩ fun x hx => ?_)).bind (ends_pure _)
  · rw [List.mem_singleton.1 hx]
    exact .reciprocal (stored_iff.2 ((stored_iff.1 hf).scale _))
  · rw [Monomial.eq_of_mem_collectFactors_singleton hx]
    exact inWords_of_natAbs_le (by decide : (1 : Int).natAbs ≤ maxExpandedPower)
  · rw [Monomial.eq_of_mem_collectFactors_singleton hx]
    exact .inl (.inl Int.one_nonneg)

/-- Inverses return, whatever the number of conjugates. -/
theorem returns_invert (hf : f.Stored) (hfL : f.LevelAtMost (2 * d)) (hd : 2 * (2 * d + 1) ≤ r)
    (budget : Nat) :
    (Call.invert budget f).Returns (inverseWith ofFactors budget f) := by
  have hsingle : ∀ {g : Form}, g.Stored → g.LevelAtMost (2 * d) → ∀ {m : Monomial} {q : Rat},
      g.singleTerm? = some (m, q) → ∀ c, (Call.normalize c (words (m.scaleExponents (-1)))).Returns
        (ofFactors c (m.scaleExponents (-1))) := fun hg hgL _ _ hm c =>
    returns_normalize_scaleExponents hr hg hgL (by omega) hm (by decide) c
  induction budget generalizing f with
  | zero =>
    rw [returns_invert_iff, invertCalls, inverseWith]
    split
    · exact ends_pure none
    · cases hm : f.singleTerm? with
      | some t => exact (ends_normalize (hsingle hf hfL hm _)).bind (ends_pure _)
      | none => exact ends_reciprocalCalls hr hf
  | succ budget ih =>
    rw [returns_invert_iff, invertCalls, inverseWith]
    split
    · exact ends_pure none
    · cases hm : f.singleTerm? with
      | some t => exact (ends_normalize (hsingle hf hfL hm _)).bind (ends_pure _)
      | none =>
        cases hconj : f.rationalizingConjugate? with
        | none => exact ends_reciprocalCalls hr hf
        | some conj =>
          have hc := hf.conjugate hconj
          have hcL : conj.LevelAtMost (2 * d) := MonomialsIn.conjugate hfL hconj
          have hproduct : (mul f conj).LevelAtMost (2 * d) := by
            rw [mul_eq_mulWith]
            exact hfL.mulWith keepsLevel_ofFactors hcL
          refine (ends_multiply (returns_multiply_of_level hr hf hc hfL hcL (by omega))).bind
            ((ends_invert (ih (hf.mul hc) hproduct)).bind ?_)
          rw [mul_eq_mulWith] at hproduct ⊢
          dsimp only
          cases hi : inverseWith ofFactors budget (mulWith ofFactors f conj) with
          | none => exact ends_reciprocalCalls hr hf
          | some i =>
            have hiL := hproduct.inverseWith keepsLevel_ofFactors hi
            have his : i.Stored := Stored.inverseWith (mul_eq_mulWith f conj ▸ hf.mul hc) hi
            have hlast := returns_multiply_of_level hr hc his (hcL.mono (Nat.le_succ _)) hiL hd
            rw [mul_eq_mulWith] at hlast
            exact (ends_multiply hlast).bind (ends_pure _)

/-- Powers return, with a word as exponent whose opposite is one. -/
theorem returns_power (hf : f.Stored) (hfL : f.LevelAtMost (2 * d)) (hd : 2 * (2 * d + 1) ≤ r)
    (hk : InWords k) : (Call.power f k).Returns (f.pow? k) := by
  rcases lt_or_ge k 0 with hneg | hpos
  · rcases lt_or_ge maxExpandedPower k.natAbs with hlt | hle
    · rw [pow?_eq_powWith, powWith_of_lt _ f hlt]
      exact returns_power_of_lt f hk hlt
    · rw [returns_power_iff, powerCalls_of_le f hle, if_pos hneg, pow?_eq_powWith, powWith,
        if_neg hle.not_gt, if_pos hneg]
      refine (ends_invert (returns_invert hr hf hfL hd _)).bind ?_
      cases hi : inverseWith ofFactors maxRationalizations f with
      | none => exact ends_pure none
      | some g =>
        have hg := returns_power_of_nonneg hr (hf.inverseWith hi)
          (hfL.inverseWith keepsLevel_ofFactors hi) hd hk.neg (by omega)
        rw [pow?_eq_powWith, powWith, Int.natAbs_neg, if_neg hle.not_gt, if_neg (by omega)] at hg
        exact ends_power hg
  · exact returns_power_of_nonneg hr hf hfL (by omega) hk hpos

end

/-! ### Products of atoms -/

/-- The products of a form and the members of a list return, where products of a class return and
belong to it. -/
theorem ends_multiplyCalls {C : Form → Prop}
    (hC : ∀ f g, C f → C g → (Call.multiply f g).Returns (mul f g) ∧ C (mul f g)) {gs : List Form}
    (hf : C f) (hgs : ∀ g ∈ gs, C g) :
    (multiplyCalls f gs).Ends (gs.foldl mul f) ∧ C (gs.foldl mul f) := by
  induction gs generalizing f with
  | nil => exact ⟨ends_pure f, hf⟩
  | cons g gs ih =>
    have hg := hC f g hf (hgs g List.mem_cons_self)
    obtain ⟨hends, hclass⟩ := ih hg.2 fun h hh => hgs h (List.mem_cons_of_mem g hh)
    exact ⟨(ends_multiply hg.1).bind hends, hclass⟩

theorem InWords.ediv (h : InWords k) (n : Nat) : InWords (k / n) := by
  have hle := Int.natAbs_ediv_le_natAbs k n
  unfold InWords at *
  omega

/-- A power that is not multiplied out returns at once. -/
theorem returns_power_of_unexpanded (f : Form) (hk : InWords k)
    (h : k = 0 ∨ maxExpandedPower < k.natAbs ∨ k < 0 ∧ f.isZero = true) :
    (Call.power f k).Returns (f.pow? k) := by
  rw [pow?_eq_powWith]
  rcases h with rfl | hlt | ⟨hneg, hzero⟩
  · rw [powWith_zero]
    exact returns_power_zero f
  · rw [powWith_of_lt _ f hlt]
    exact returns_power_of_lt f hk hlt
  · rw [powWith_eq_none_iff.2 (.inr ⟨hneg, hzero⟩), isZero_iff.1 hzero]
    exact returns_power_neg_zero hk hneg

/-- The power that a factor gives rise to returns. -/
def PowerReturns : Atom × Int → Prop
  | (.radical f n, k) => (Call.power f (k / n)).Returns (f.pow? (k / n))
  | (.reciprocal f, k) => k < 0 → (Call.power f (-k)).Returns (f.pow? (-k))
  | _ => True

theorem powerReturns_of_unmoved {x : Atom × Int} (hx : Unmoved x) (hk : InWords x.2) :
    PowerReturns x := by
  obtain ⟨a, k⟩ := x
  cases a with
  | radical f n => exact returns_power_of_unexpanded f (hk.ediv n) hx.2
  | reciprocal f =>
    exact fun hneg => returns_power_of_unexpanded f hk.neg
      (.inr (.inl (hx.resolve_left hneg.not_ge)))
  | _ => trivial

theorem powerReturns_of_settlesWithin (hr : ReturnsWithin r) {x : Atom × Int}
    (hx : SettlesWithin (r + 1) x) (ha : x.1.Stored) (hk : InWords x.2) : PowerReturns x := by
  rcases hx with hx | hx
  · exact powerReturns_of_unmoved hx hk
  · obtain ⟨a, k⟩ := x
    have hlevel : 2 * a.level ≤ r + 2 := by
      dsimp only at hx
      omega
    cases a with
    | radical f n =>
      have hdepth : 2 * (2 * (f.depth + 1)) ≤ r + 2 := hlevel
      cases ha with
      | radical hf =>
        exact returns_power hr hf (levelAtMost_of_depth le_rfl) (by omega) (hk.ediv n)
    | reciprocal f =>
      have hdepth : 2 * (2 * f.depth + 1) ≤ r + 2 := hlevel
      cases ha with
      | reciprocal hf =>
        exact fun hneg => returns_power_of_nonneg hr hf (levelAtMost_of_depth le_rfl) (by omega)
          hk.neg (by omega)
    | _ => trivial

theorem radicalShare_answer (power : Form → Int → Option Form) (f : Form) (n : Nat) (k : Int) :
    radicalShare (fun _ _ => power f (k / n)) f n k = radicalShare power f n k := rfl

theorem reciprocalShare_answer (power : Form → Int → Option Form) (f : Form) (k : Int) :
    reciprocalShare (fun _ _ => power f (-k)) f k = reciprocalShare power f k := rfl

theorem ends_shareCalls {x : Atom × Int} (h : PowerReturns x) (hk : InWords x.2) :
    (shareCalls x).Ends (share pow? x) := by
  obtain ⟨a, k⟩ := x
  cases a with
  | radical f n =>
    rw [shareCalls, share, ← radicalShare_answer]
    exact (ends_power h).bind (ends_pure _)
  | reciprocal f =>
    rw [shareCalls, share]
    by_cases hneg : k < 0
    · rw [if_pos hneg, wrap64_of_inWords hk.neg, ← reciprocalShare_answer]
      exact (ends_power (h hneg)).bind (ends_pure _)
    · rw [if_neg hneg, reciprocalShare, reciprocalShare, if_neg hneg, if_neg hneg]
      exact ends_pure _
  | _ => exact ends_pure _

/-- A product is normalised, if what it gives rise to is. -/
theorem returns_normalize {C : Form → Prop}
    (hC : ∀ f g, C f → C g → (Call.multiply f g).Returns (mul f g) ∧ C (mul f g)) (hone : C one)
    (hrange : (Call.normalize c factors).InRange)
    (hpower : ∀ x ∈ Monomial.collectFactors factors, PowerReturns x)
    (hexpanded : ∀ g ∈ (shares pow? (Monomial.collectFactors factors)).flatMap Share.expanded, C g)
    (hlast : ∀ g, C g → g.isOne = false →
      (Call.multiply (sharedTerm c (shares pow? (Monomial.collectFactors factors))) g).Returns
        (mul (sharedTerm c (shares pow? (Monomial.collectFactors factors))) g)) :
    (Call.normalize c factors).Returns (ofFactors c factors) := by
  rw [returns_normalize_iff, normalizeCalls, ofFactors_eq_normalizeWith]
  by_cases hc : c = 0
  · rw [if_pos hc, normalizeWith, if_pos hc]
    exact ends_pure zero
  · rw [if_neg hc, normalizeWith_eq _ _ hc, words_of_inWords hrange.2]
    have hshares : ∀ x ∈ Monomial.collectFactors factors, (shareCalls x).Ends (share pow? x) :=
      fun x hx => ends_shareCalls (hpower x hx) (hrange.2 x hx)
    obtain ⟨hfold, hclass⟩ := ends_multiplyCalls hC hone hexpanded
    refine (ends_each [] hshares).bind (hfold.bind ?_)
    dsimp only
    cases hisOne : (((shares pow? (Monomial.collectFactors factors)).flatMap Share.expanded).foldl
        mul one).isOne with
    | true => exact ends_pure _
    | false => exact ends_multiply (hlast _ hclass hisOne)

/-- Products that need no unfolding are normalised. -/
theorem returnsWithin_zero : ReturnsWithin 0 := by
  intro c factors hrange hsettles
  have hunmoved := fun x hx => unmoved_of_settlesWithin_zero (hsettles x hx)
  have hexpanded := fun g hg => eq_one_of_unmoved (g := g) ofFactors hunmoved hg
  rw [← pow?_eq] at hexpanded
  refine returns_normalize (C := (· = one)) ?_ rfl hrange
    (fun x hx => powerReturns_of_unmoved (hunmoved x hx) (hrange.2 x hx)) hexpanded ?_
  · rintro f g rfl rfl
    refine ⟨returns_multiply fun s hs t ht hs1 _ => ?_, ?_⟩
    · rw [List.mem_singleton.1 hs] at hs1
      cases hs1
    · rw [mul_eq_mulWith]
      have hones : ∀ g ∈ [one], g = one := fun g hg => List.mem_singleton.1 hg
      exact foldl_mulWith_one ofFactors hones
  · rintro g rfl hfalse
    cases hfalse

/-- One unfolding more is enough for products that need one more. -/
theorem returnsWithin_succ (hr : ReturnsWithin r) : ReturnsWithin (r + 1) := by
  intro c factors hrange hsettles
  have hatoms : ∀ x ∈ Monomial.collectFactors factors, x.1.Stored :=
    Monomial.forall_collectFactors hrange.1
  refine returns_normalize (C := fun g => g.Stored ∧ g.LevelAtMost (r / 2)) (fun f g hf hg => ?_)
    ⟨stored_one, levelAtMost_one _⟩ hrange (fun x hx =>
      powerReturns_of_settlesWithin hr (hsettles x hx) (hatoms x hx) (hrange.2 x hx))
    (fun g hg => ⟨?_, ?_⟩) fun g hg _ => returns_multiply fun s hs t ht _ _ => ?_
  · refine ⟨returns_multiply_of_level hr hf.1 hg.1 hf.2 hg.2 (by omega), hf.1.mul hg.1, ?_⟩
    rw [mul_eq_mulWith]
    exact hf.2.mulWith keepsLevel_ofFactors hg.2
  · -- what is multiplied out are powers of stored forms
    rcases exists_of_mem_expanded hg with ⟨f, n, k, hx, hp⟩ | ⟨f, k, hx, -, hp⟩
    · cases hatoms _ hx with
      | radical hf => exact hf.pow? hp
    · cases hatoms _ hx with
      | reciprocal hf => exact hf.pow? hp
  · obtain ⟨x, hx, hg⟩ := exists_share_of_mem_expanded hg
    rw [pow?_eq] at hg
    exact levelAtMost_of_mem_share (hsettles x hx) keepsLevel_ofFactors hg
  · -- the term that stays times what is multiplied out
    have hterm : (sharedTerm c (shares pow? (Monomial.collectFactors factors))).Stored :=
      stored_iff.2 (monomialsIn_ofTerm (closed_stored.kept pow? hrange.1) _)
    refine hr _ _ ⟨fun x hx => (List.mem_append.1 hx).elim ((hterm.monomial hs).atoms x)
      ((hg.1.monomial ht).atoms x), fun x hx =>
        inWords_append (hterm.monomial hs) (hg.1.monomial ht) hx⟩ fun x hx => ?_
    have hfactors := factors_of_mem_sharedTerm hs
    rw [pow?_eq] at hfactors
    exact settlesWithin_append hsettles hfactors (hg.2 t ht) hx

/-- **Normalisation returns**, however many unfoldings it takes. -/
theorem returnsWithin (r : Nat) : ReturnsWithin r := by
  induction r with
  | zero => exact returnsWithin_zero
  | succ r ih => exact returnsWithin_succ ih

/-- **Calls return** what the library computes, as far as the exponents of the call and their
opposites are words. -/
theorem Call.InRange.returns {c : Call} (h : c.InRange) : c.Returns c.value := by
  cases c with
  | normalize c factors =>
    refine returnsWithin (4 * Monomial.depthFactors factors) c factors h fun x hx => ?_
    obtain ⟨k, hk⟩ := Monomial.exists_of_mem_collectFactors hx
    have hdepth := Monomial.depthFactors_le_iff.1 le_rfl (x.1, k) hk
    have hlevel := x.1.level_le
    dsimp only at hdepth
    exact .inr (.inl (by omega))
  | multiply f g =>
    have hfL := (levelAtMost_of_depth (f := f) le_rfl).mono
      (Nat.mul_le_mul_left 2 (le_max_left f.depth g.depth))
    have hgL := (levelAtMost_of_depth (f := g) le_rfl).mono
      (Nat.mul_le_mul_left 2 (le_max_right f.depth g.depth))
    exact returns_multiply_of_level (returnsWithin _) h.1 h.2 hfL hgL le_rfl
  | power f k => exact returns_power (returnsWithin _) h.1 (levelAtMost_of_depth le_rfl) le_rfl h.2
  | invert budget f =>
    exact returns_invert (returnsWithin _) h (levelAtMost_of_depth le_rfl) le_rfl budget

end Form

end Resolvent

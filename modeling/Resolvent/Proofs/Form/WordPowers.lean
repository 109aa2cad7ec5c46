import Resolvent.Proofs.Form.Constant
import Resolvent.Proofs.Form.Reachable
import Resolvent.Proofs.Form.Recursion

/-!
# Powers whose exponent is a word

The bound for exponents is tested on the absolute value, and a negative power is the opposite power
of the inverse.  The least word of 64 bits is its own absolute value and its own opposite, so it
passes the test, and a power of it asks for the same power of the inverse, and so on
(`Form.returns_power_leastWord_iff`).  For every other word nothing overflows and the recursion ends
(`Form.returns_power_word`); the same holds of all calls that arise from normal forms
(`Form.Call.OverNormal.returns_iff`) and of powers with a fraction as exponent.

The recursion on the least word ends if and only if one of the repeated inverses is zero, which is
without an inverse.  No repeated inverse of a number other than zero is
(`Form.not_returns_power_leastWord`).
-/

namespace Resolvent

/-! ### Exponents that are words -/

/-- The exponents in the form and inside its atoms are words of 32 bits. -/
def Form.HasWords (f : Form) : Prop := f.Throughout fun x => Width.isInt32 x.2 = true

/-- The exponents inside the atom are words of 32 bits. -/
def Atom.HasWords (a : Atom) : Prop := a.Throughout fun x => Width.isInt32 x.2 = true

/-- The exponents in the monomial and inside its atoms are words of 32 bits. -/
def Monomial.HasWords (m : Monomial) : Prop :=
  ∀ x ∈ m.factors, Width.isInt32 x.2 = true ∧ x.1.HasWords

theorem Form.hasWords_iff {f : Form} : f.HasWords ↔ f.MonomialsIn Monomial.HasWords :=
  Form.throughout_iff

/-- Normalisation leaves words as exponents. -/
theorem Form.closed_hasWords : Monomial.Closed Atom.HasWords Monomial.HasWords where
  one := nofun
  atoms := fun h x hx => (h x hx).2
  kept := by
    intro power factors h x hx
    have hsorted := Monomial.sorted_collectFactors factors
    have hmem := ((Monomial.mem_collectFactors_of_pairwise (pairwise_kept power hsorted)).1 hx).2
    exact ⟨isInt32_of_mem_kept hmem,
      forall_kept Atom.throughout_root (Monomial.forall_collectFactors h) x hmem⟩
  radicand := fun h => Form.hasWords_iff.1 (Atom.throughout_radical.1 h)
  reciprocal := Atom.throughout_reciprocal.trans Form.hasWords_iff

mutual

/-- A normal atom is stored as atoms are, if exponents inside it are words of 32 bits. -/
theorem Atom.IsNormal.stored : ∀ {a : Atom}, a.IsNormal → a.HasWords → a.Stored
  | _, .symbol id, _ => .symbol id
  | _, .pi, _ => .pi
  | _, .e, _ => .e
  | _, .imaginaryUnit, _ => .imaginaryUnit
  | _, .root _ _ _ _ _, _ => .root _ _
  | _, .radical hf _ _ _, h => .radical (Form.IsNormal.stored hf (Atom.throughout_radical.1 h))
  | _, .apply g _, _ => .apply g _
  | _, .power _ _, _ => .power _ _
  | _, .reciprocal hf _ _, h =>
    .reciprocal (Form.IsNormal.stored hf (Atom.throughout_reciprocal.1 h))

/-- A normal form is stored as forms are, if its exponents are words of 32 bits throughout. -/
theorem Form.IsNormal.stored : ∀ {f : Form}, f.IsNormal → f.HasWords → f.Stored
  | _, .intro harranged hatoms, h =>
    have h := Form.throughout_iff.1 h
    .intro (fun t ht => ((harranged.terms t ht).2.sorted).pairwise_ne)
      (fun t ht x hx => ⟨Monomial.ne_zero_of_exponentFits ((harranged.terms t ht).2.exponents x hx),
        (h t ht x hx).1⟩)
      (fun t ht x hx hunit => by
        have hfits := (harranged.terms t ht).2.exponents x hx
        obtain ⟨a, k⟩ := x
        dsimp only at hunit
        subst hunit
        exact hfits)
      fun t ht x hx => Atom.IsNormal.stored (hatoms t ht x hx) (h t ht x hx).2

end

namespace Form

open Procedure (ends_pure ends_pure_iff ends_bind_iff ends_power ends_power_iff ends_invert)

variable {f g : Form} {k : Int} {p : Option Form} {n : Nat}

/-! ### The least word -/

/-- The inverse, and zero for zero. -/
def inverted (f : Form) : Form := f.inverse?.getD zero

theorem inWords_iff (hk : Width.isInt64 k = true) : InWords k ↔ k ≠ leastWord := by
  rw [Width.isInt64_iff] at hk
  unfold InWords leastWord
  omega

theorem inverse?_eq_none_iff : f.inverse? = none ↔ f = zero := by
  rw [inverse?_eq_inverseWith, inverseWith_eq_none_iff, isZero_iff]

theorem Stored.inverse? (hf : f.Stored) (h : f.inverse? = some g) : g.Stored :=
  stored_iff.2 ((stored_iff.1 hf).inverse closed_stored h)

theorem returns_invert_inverse? (hf : f.Stored) :
    (Call.invert maxRationalizations f).Returns f.inverse? := by
  rw [inverse?_eq_inverseWith]
  exact Call.InRange.returns (c := .invert maxRationalizations f) hf

/-- The least word passes the test of the bound, and a power of it is the same power of the
inverse. -/
theorem powerCalls_leastWord (f : Form) :
    powerCalls f leastWord =
      Procedure.invert maxRationalizations f >>= inversePowerCalls leastWord := by
  have habs : ¬ (maxExpandedPower : Int) < Width.wrap64 leastWord.natAbs := by decide
  have hneg : leastWord < 0 := by decide
  have hopposite : Width.wrap64 (-leastWord) = leastWord := by decide
  rw [powerCalls, if_neg habs, if_pos hneg, hopposite]

/-- Whatever room there is, a power of the least word is left through an inverse that is zero. -/
theorem eq_none_of_run_leastWord (hf : f.Stored) {room : Nat}
    (h : (Call.power f leastWord).run room = some p) :
    p = none ∧ ∃ n, inverted^[n] f = zero := by
  induction room generalizing f with
  | zero => cases h
  | succ room ih =>
    have hbody : (powerCalls f leastWord).answerWith (Call.run room) = some p := h
    rw [powerCalls_leastWord, Procedure.answerWith_bind] at hbody
    obtain ⟨i, hi, hnext⟩ := Option.bind_eq_some_iff.1 hbody
    have hinvert : (Call.invert maxRationalizations f).Returns i :=
      ⟨room, (Procedure.answerWith_ask _ _).symm.trans hi⟩
    obtain rfl : f.inverse? = i := (returns_invert_inverse? hf).unique hinvert
    cases hg : f.inverse? with
    | none =>
      rw [hg] at hnext
      exact ⟨(Option.some.inj hnext).symm, 0, inverse?_eq_none_iff.1 hg⟩
    | some g =>
      rw [hg] at hnext
      obtain ⟨hp, n, hn⟩ := ih (hf.inverse? hg) ((Procedure.answerWith_ask _ _).symm.trans hnext)
      refine ⟨hp, n + 1, ?_⟩
      rwa [Function.iterate_succ_apply, inverted, hg]

theorem returns_power_leastWord_of_iterate (hf : f.Stored) (h : inverted^[n] f = zero) :
    (Call.power f leastWord).Returns none := by
  have hstep : ∀ {f : Form}, f.Stored →
      (∀ g, f.inverse? = some g → (Call.power g leastWord).Returns none) →
        (Call.power f leastWord).Returns none := by
    intro f hf hnext
    rw [returns_power_iff, powerCalls_leastWord]
    refine (ends_invert (returns_invert_inverse? hf)).bind ?_
    cases hg : f.inverse? with
    | none => exact ends_pure none
    | some g => exact ends_power (hnext g hg)
  induction n generalizing f with
  | zero =>
    refine hstep hf fun g hg => ?_
    have hnone : f.inverse? = none := inverse?_eq_none_iff.2 h
    rw [hnone] at hg
    cases hg
  | succ n ih =>
    refine hstep hf fun g hg => ih (hf.inverse? hg) ?_
    rwa [Function.iterate_succ_apply, inverted, hg] at h

/-- **A power of the least word** returns, without an expansion, if and only if one of the repeated
inverses is zero. -/
theorem returns_power_leastWord_iff (hf : f.Stored) :
    (Call.power f leastWord).Returns p ↔ p = none ∧ ∃ n, inverted^[n] f = zero := by
  constructor
  · rintro ⟨room, h⟩
    exact eq_none_of_run_leastWord hf h
  · rintro ⟨rfl, n, hn⟩
    exact returns_power_leastWord_of_iterate hf hn

theorem inverted_iterate_ofRat (q : Rat) (n : Nat) :
    ∃ r : Rat, (r = 0 ↔ q = 0) ∧ inverted^[n] (ofRat q) = ofRat r := by
  induction n with
  | zero => exact ⟨q, Iff.rfl, rfl⟩
  | succ n ih =>
    obtain ⟨r, hr, hn⟩ := ih
    refine ⟨r⁻¹, inv_eq_zero.trans hr, ?_⟩
    rw [Function.iterate_succ_apply', hn, inverted, inverse?_ofRat, Rational.inverse?]
    split
    · next hzero =>
      rw [hzero, inv_zero, ofRat_zero]
      rfl
    · rfl

/-- A number other than zero has no power of the least word, and none is not returned either. -/
theorem not_returns_power_leastWord {q : Rat} (hq : q ≠ 0) (p : Option Form) :
    ¬ (Call.power (ofRat q) leastWord).Returns p := by
  rw [returns_power_leastWord_iff (Constructible.ofRat q).stored]
  rintro ⟨-, n, hn⟩
  obtain ⟨r, hr, hiterate⟩ := inverted_iterate_ofRat q n
  rw [hiterate, ← isZero_iff, isZero_ofRat, beq_iff_eq] at hn
  exact hq (hr.1 hn)

/-- A power whose exponent is a word returns what the library computes, with one exception. -/
theorem returns_power_word (hf : f.Stored) (hk : Width.isInt64 k = true) :
    (Call.power f k).Returns p ↔ p = f.pow? k ∧ (k = leastWord → ∃ n, inverted^[n] f = zero) := by
  by_cases hleast : k = leastWord
  · subst hleast
    rw [returns_power_leastWord_iff hf, pow?_leastWord]
    simp
  · have hreturns := Call.InRange.returns (c := .power f k) ⟨hf, (inWords_iff hk).2 hleast⟩
    exact (hreturns.iff_eq p).trans ⟨fun h => ⟨h, fun h' => absurd h' hleast⟩, And.left⟩

/-! ### Exponents that are fractions -/

theorem toInt64?_eq_some {q : Rat} (h : Rational.toInt64? q = some k) :
    k = q.num ∧ q.den = 1 ∧ Width.isInt64 k = true := by
  obtain ⟨hk, hword⟩ := Option.filter_eq_some_iff.1 h
  unfold Rational.toInteger? at hk
  split at hk
  · next hden => exact ⟨(Option.some.inj hk).symm, hden, hword⟩
  · cases hk

/-- A power with a rational exponent ends with what the library computes, unless it asks for a power
of the least word: then it is an atom, if that power returns. -/
theorem ends_rationalPowerCalls_iff (hf : f.Stored) (s : Preferences) (q : Rat)
    (r : Except CanonicalError Form) :
    (rationalPowerCalls s f q).Ends r ↔
      if q.num = leastWord ∧ q.den ≤ maxRootIndex then
        r = .ok (ofAtom (.power f (ofRat q))) ∧ ∃ n, inverted^[n] f = zero
      else r = rationalPower s f q := by
  unfold rationalPowerCalls rationalPower
  dsimp only
  cases hint : Rational.toInt64? q with
  | some k =>
    obtain ⟨rfl, hden, hword⟩ := toInt64?_eq_some hint
    have hroot : q.den ≤ maxRootIndex := by
      rw [hden]
      decide
    simp only [ends_bind_iff, ends_power_iff, returns_power_word hf hword, ends_pure_iff]
    split
    · next hleast =>
      simp only [hleast.1, pow?_leastWord, forall_const, and_assoc, exists_eq_left, Option.getD_none]
      exact and_comm
    · next hleast =>
      have hne : q.num ≠ leastWord := fun h => hleast ⟨h, hroot⟩
      simp only [hne, IsEmpty.forall_iff, and_true, exists_eq_left, wordPower_of_ne hne]
      rfl
  | none =>
    dsimp only
    by_cases hask : Width.isInt64 q.num = true ∧
        Width.wrap64 q.num.natAbs ≤ maxExpandedPower ∧ q.den ≤ maxRootIndex
    · simp only [if_pos hask, ends_bind_iff, ends_power_iff, returns_power_word hf hask.1]
      split
      · next hleast =>
        simp only [hleast.1, pow?_leastWord, forall_const, and_assoc, exists_eq_left, ends_pure_iff]
        exact and_comm
      · next hleast =>
        have hne : q.num ≠ leastWord := fun h => hleast ⟨h, hask.2.2⟩
        simp only [hne, IsEmpty.forall_iff, and_true, exists_eq_left, wordPower_of_ne hne]
        cases f.pow? q.num <;> exact ends_pure_iff
    · have hleast : ¬ (q.num = leastWord ∧ q.den ≤ maxRootIndex) := fun h =>
        hask (and_assoc.1 ⟨numerator_in_bound_iff.2 (.inl h.1), h.2⟩)
      rw [if_neg hask, if_neg hask, if_neg hleast, ends_pure_iff]
      rfl

/-! ### The room for calls -/

theorem inversesEnd_iff {room : Nat} :
    f.inversesEnd room = true ↔ ∃ n < room, inverted^[n] f = zero := by
  induction room generalizing f with
  | zero => exact iff_of_false nofun nofun
  | succ room ih =>
    rw [inversesEnd]
    cases hg : f.inverse? with
    | none => exact iff_of_true rfl ⟨0, room.succ_pos, inverse?_eq_none_iff.1 hg⟩
    | some g =>
      have hne : f ≠ zero := fun hzero => by
        rw [inverse?_eq_none_iff.2 hzero] at hg
        cases hg
      have hnext : inverted f = g := by rw [inverted, hg, Option.getD_some]
      refine ih.trans ⟨fun ⟨n, hn, hzero⟩ => ⟨n + 1, Nat.succ_lt_succ hn, ?_⟩, ?_⟩
      · rwa [Function.iterate_succ_apply, hnext]
      · rintro ⟨_ | n, hn, hzero⟩
        · exact absurd hzero hne
        · rw [Function.iterate_succ_apply, hnext] at hzero
          exact ⟨n, Nat.lt_of_succ_lt_succ hn, hzero⟩

/-- A power whose exponent is a word is computed as that of the whole number.  The calls for the
least word overflow unless they end within the room that there is. -/
theorem wordPower_eq_ok_iff : f.wordPower k = .ok p ↔
    p = f.pow? k ∧ (k = leastWord → ∃ n < callRoom, inverted^[n] f = zero) := by
  by_cases hleast : k = leastWord
  · simp only [hleast, forall_const, ← inversesEnd_iff, pow?_leastWord, wordPower, if_true]
    split
    · next hend => simp [hend, eq_comm]
    · next hend => simp [hend]
  · simp [wordPower_of_ne hleast, hleast, eq_comm]

/-! ### Overflow -/

/-- The absolute value and the opposite of an exponent are words, and so are its products with the
exponents of the form, where these are computed. -/
structure FitsWords (f : Form) (k : Int) : Prop where
  /-- The absolute value is a word. -/
  magnitude : Width.isInt64 k.natAbs = true
  /-- The opposite is a word. -/
  opposite : Width.isInt64 (-k) = true
  /-- The products are words. -/
  products : k.natAbs ≤ maxExpandedPower → ∀ t ∈ f.terms, ∀ x ∈ t.1.factors,
    Width.isInt64 (x.2 * k) = true

theorem InWords.isInt64 (h : InWords k) : Width.isInt64 k = true := by
  unfold InWords at h
  exact Width.isInt64_iff.2 (by omega)

theorem fitsWords_of_inWords (hf : f.Stored) (hk : InWords k) : FitsWords f k := by
  refine ⟨?_, hk.neg.isInt64, fun hle t ht x hx => (inWords_mul (hf.monomial ht) hle hx).isInt64⟩
  unfold InWords at hk
  exact Width.isInt64_iff.2 (by omega)

/-- Nothing overflows, unless the exponent is the least word. -/
theorem fitsWords_iff (hf : f.Stored) (hk : Width.isInt64 k = true) :
    FitsWords f k ↔ k ≠ leastWord := by
  constructor
  · rintro h rfl
    exact absurd h.opposite (by decide)
  · exact fun hne => fitsWords_of_inWords hf ((inWords_iff hk).2 hne)

/-- **Powers whose exponent is a word.**  With words for exponents throughout, a power of a normal
form returns what the library computes, and nothing overflows in it or in the power of the inverse
that a negative one is, for every exponent but the least word.  There it has no expansion, and
returns only if one of the repeated inverses is zero; the room for calls is exhausted if none of the
first ones is.  The numerator of a fraction behaves in the same way. -/
theorem power_of_isNormal (hf : f.IsNormal) (hexponents : f.HasWords)
    (hk : Width.isInt64 k = true) (s : Preferences) (q : Rat) :
    (FitsWords f k ↔ k ≠ leastWord) ∧
    (k ≠ leastWord → ∀ g, f.inverse? = some g → FitsWords g (-k)) ∧
    (f.pow? k = none ↔ maxExpandedPower < k.natAbs ∨ k < 0 ∧ f = zero) ∧
    (∀ p, (Call.power f k).Returns p ↔
      p = f.pow? k ∧ (k = leastWord → ∃ n, inverted^[n] f = zero)) ∧
    (∀ p, f.wordPower k = .ok p ↔
      p = f.pow? k ∧ (k = leastWord → ∃ n < callRoom, inverted^[n] f = zero)) ∧
    ∀ r, (rationalPowerCalls s f q).Ends r ↔
      if q.num = leastWord ∧ q.den ≤ maxRootIndex then
        r = .ok (ofAtom (.power f (ofRat q))) ∧ ∃ n, inverted^[n] f = zero
      else r = rationalPower s f q := by
  have hstored := hf.stored hexponents
  refine ⟨fitsWords_iff hstored hk, fun hne g hg => ?_, ?_, fun p => returns_power_word hstored hk,
    fun p => wordPower_eq_ok_iff, ends_rationalPowerCalls_iff hstored s q⟩
  · exact fitsWords_of_inWords (hstored.inverse? hg) ((inWords_iff hk).2 hne).neg
  · rw [pow?_eq_powWith, powWith_eq_none_iff, isZero_iff]

/-- The theorem at the number two: its power of the least word does not return. -/
theorem power_of_isNormal_two : (ofRat 2).IsNormal ∧ (ofRat 2).HasWords ∧
    Width.isInt64 leastWord = true ∧ ¬ FitsWords (ofRat 2) leastWord ∧
    (ofRat 2).pow? leastWord = none ∧ ∀ p, ¬ (Call.power (ofRat 2) leastWord).Returns p := by
  have hexponents : (ofRat 2).HasWords := hasWords_iff.2 (monomialsIn_ofRat closed_hasWords.one 2)
  have h := power_of_isNormal (isNormal_ofRat 2) hexponents (k := leastWord) (by decide) {} 2
  refine ⟨isNormal_ofRat 2, hexponents, by decide, fun hfits => h.1.1 hfits rfl,
    h.2.2.1.2 (.inl (by decide)), fun p hp => ?_⟩
  obtain ⟨n, hn⟩ := ((h.2.2.2.1 p).1 hp).2 rfl
  obtain ⟨r, hr, hiterate⟩ := inverted_iterate_ofRat 2 n
  rw [hiterate, ← isZero_iff, isZero_ofRat, beq_iff_eq] at hn
  exact absurd (hr.1 hn) (by decide)

/-! ### All calls on normal forms -/

/-- A call on normal forms whose exponents are words: of 32 bits in the forms, and of 64 bits for
powers and for the exponents of a product, where each is added up and has an opposite. -/
def Call.OverNormal : Call → Prop
  | normalize _ factors =>
    (∀ x ∈ factors, x.1.IsNormal ∧ x.1.HasWords) ∧
      ∀ x ∈ Monomial.collectFactors factors, InWords x.2
  | multiply f g => (f.IsNormal ∧ f.HasWords) ∧ g.IsNormal ∧ g.HasWords
  | power f k => (f.IsNormal ∧ f.HasWords) ∧ Width.isInt64 k = true
  | invert _ f => f.IsNormal ∧ f.HasWords

/-- **Normalisation, multiplication, powers and inverses return** on normal forms, with what the
library computes, to any depth of nesting and for any exponents.  The exception are powers of the
least word of forms none of whose repeated inverses is zero. -/
theorem Call.OverNormal.returns_iff {call : Call} (h : call.OverNormal) (r : call.Result) :
    call.Returns r ↔ r = call.value ∧
      ∀ f, call = .power f leastWord → ∃ n, inverted^[n] f = zero := by
  cases call with
  | normalize c factors =>
    have hrange : (Call.normalize c factors).InRange :=
      ⟨fun x hx => (h.1 x hx).1.stored (h.1 x hx).2, h.2⟩
    exact (hrange.returns.iff_eq r).trans ⟨fun h => ⟨h, nofun⟩, And.left⟩
  | multiply f g =>
    have hrange : (Call.multiply f g).InRange := ⟨h.1.1.stored h.1.2, h.2.1.stored h.2.2⟩
    exact (hrange.returns.iff_eq r).trans ⟨fun h => ⟨h, nofun⟩, And.left⟩
  | power f k =>
    refine (returns_power_word (h.1.1.stored h.1.2) h.2).trans (and_congr_right fun _ => ?_)
    constructor
    · intro hleast g heq
      obtain ⟨rfl, hk⟩ := Call.power.inj heq
      exact hleast hk
    · rintro hleast rfl
      exact hleast f rfl
  | invert budget f =>
    have hrange : (Call.invert budget f).InRange := h.1.stored h.2
    exact (hrange.returns.iff_eq r).trans ⟨fun h => ⟨h, nofun⟩, And.left⟩

/-- A negative power of the square root of `1 + √x`. -/
def nestedRadicalPower : List (Atom × Int) :=
  [(.radical (add one (ofAtom (.radical (symbol 0) 2))) 2, -3)]

/-- A negative power of a radical in which there is another is normalised. -/
theorem returns_iff_nestedRadical : (Call.normalize 1 nestedRadicalPower).OverNormal ∧
    (Call.normalize 1 nestedRadicalPower).Returns (ofFactors 1 nestedRadicalPower) := by
  have hsymbol : (symbol 0).HasWords := hasWords_iff.2 (monomialsIn_ofAtom closed_hasWords nofun)
  have hwords : (add one (ofAtom (.radical (symbol 0) 2))).HasWords :=
    hasWords_iff.2 ((monomialsIn_ofRat closed_hasWords.one 1).add
      (monomialsIn_ofAtom closed_hasWords (Atom.throughout_radical.2 hsymbol)))
  have hinner : (ofAtom (.radical (symbol 0) 2)).IsNormal :=
    isNormal_ofAtom (.radical (isNormal_ofAtom (.symbol 0)) (by decide +kernel) le_rfl (by decide))
  have hradical : (Atom.radical (add one (ofAtom (.radical (symbol 0) 2))) 2).IsNormal :=
    .radical ((isNormal_ofRat 1).add hinner) (by decide +kernel) le_rfl (by decide)
  have h : (Call.normalize 1 nestedRadicalPower).OverNormal := by
    refine ⟨fun x hx => ?_, fun x hx => ?_⟩
    · rw [List.mem_singleton.1 hx]
      exact ⟨hradical, Atom.throughout_radical.2 hwords⟩
    · rw [Monomial.eq_of_mem_collectFactors_singleton hx]
      exact inWords_of_natAbs_le (by decide : (-3 : Int).natAbs ≤ maxExpandedPower)
  exact ⟨h, (h.returns_iff _).2 ⟨rfl, nofun⟩⟩

end Form

end Resolvent

import Mathlib
import Resolvent.Number.Decimal
import Resolvent.Number.Digits
import Resolvent.Proofs.Expression.Lexing
import Resolvent.Proofs.Numeric.DoubleOrder
import Resolvent.Proofs.Numeric.Opposites

/-!
# Numerals

The numeral of a number that is not negative: the digits of a whole number, and the positional and
the scientific text of a decimal.  `numeralValue?` reads all of them back.  The sign that the text
of a double begins with is that of the double (`Double.lt_zero_iff_negative`).
-/

namespace Resolvent

open Nat (toDigits)
open Float.Model (UnpackedFloat Format)

/-- The number that a numeral denotes: digits with at most one point, and an exponent of ten behind
its mark. -/
def numeralValue? (cs : List Char) : Option Rat :=
  let mantissa := cs.takeWhile (· != 'ᴇ')
  let exponent := cs.dropWhile (· != 'ᴇ')
  if exponent.isEmpty then Decimal.unsigned? false mantissa 0
  else (Decimal.signed? exponent.tail).bind (Decimal.unsigned? false mantissa)

/-! ### Digits -/

theorem isDigit_of_mem_digits {n : Nat} {c : Char} (h : c ∈ toDigits 10 n) : c.isDigit = true :=
  Nat.isDigit_of_mem_toDigits (by decide) (by decide) h

theorem ofDigits_append (cs ds : List Char) : Decimal.ofDigits (cs ++ ds) =
    Nat.ofDigitChars 10 ds (Decimal.ofDigits cs) :=
  Nat.ofDigitChars_append 0

theorem ofDigits_digits (n : Nat) : Decimal.ofDigits (toDigits 10 n) = n :=
  Nat.ofDigitChars_ten_toDigits

/-- Zeros behind digits. -/
theorem ofDigits_zeros (cs : List Char) (k : Nat) :
    Decimal.ofDigits (cs ++ List.replicate k '0') = Decimal.ofDigits cs * 10 ^ k := by
  rw [ofDigits_append, Nat.ofDigitChars_replicate_zero, Nat.mul_comm]

/-- Zeros before digits. -/
theorem ofDigits_zeros_append (k : Nat) (cs : List Char) :
    Decimal.ofDigits (List.replicate k '0' ++ cs) = Decimal.ofDigits cs := by
  have hzeros := ofDigits_zeros [] k
  rw [List.nil_append, Decimal.ofDigits_nil, Nat.zero_mul] at hzeros
  rw [ofDigits_append, hzeros]
  rfl

/-- Digits with at most one point that is not the first: the number without the point, and how many
digits are behind it. -/
inductive IsMantissa : List Char → Nat → Nat → Prop where
  /-- Digits without a point. -/
  | whole {digits : List Char} (ne_nil : digits ≠ [])
    (isDigit : ∀ c ∈ digits, c.isDigit = true) : IsMantissa digits (Decimal.ofDigits digits) 0
  /-- Digits with a point. -/
  | point {whole fraction : List Char} (ne_nil : whole ≠ [])
    (isDigit : ∀ c ∈ whole ++ fraction, c.isDigit = true) :
    IsMantissa (whole ++ '.' :: fraction) (Decimal.ofDigits (whole ++ fraction)) fraction.length

namespace IsMantissa

variable {cs : List Char} {n places : Nat}

theorem ne_point {ds : List Char} (h : ∀ c ∈ ds, c.isDigit = true) : ∀ c ∈ ds, (c != '.') = true := by
  intro c hc
  rw [bne_iff_ne]
  rintro rfl
  exact absurd (h _ hc) (by decide)

/-- The characters are digits and points. -/
theorem mem (h : IsMantissa cs n places) : ∀ c ∈ cs, c.isDigit = true ∨ c = '.' := by
  cases h with
  | whole _ hdigits => exact fun c hc => .inl (hdigits c hc)
  | point _ hdigits =>
    intro c hc
    rw [List.mem_append, List.mem_cons] at hc
    rcases hc with hc | rfl | hc
    · exact .inl (hdigits c (List.mem_append_left _ hc))
    · exact .inr rfl
    · exact .inl (hdigits c (List.mem_append_right _ hc))

/-- The first character is a digit. -/
theorem exists_cons (h : IsMantissa cs n places) : ∃ c ds, cs = c :: ds ∧ c.isDigit = true := by
  cases h with
  | whole hne hdigits =>
    obtain ⟨c, ds, rfl⟩ := List.exists_cons_of_ne_nil hne
    exact ⟨c, ds, rfl, hdigits c List.mem_cons_self⟩
  | point hne hdigits =>
    obtain ⟨c, ds, rfl⟩ := List.exists_cons_of_ne_nil hne
    exact ⟨c, _, rfl, hdigits c List.mem_cons_self⟩

/-- The number times a power of ten. -/
theorem unsigned?_eq (h : IsMantissa cs n places) (exponent : Int) :
    Decimal.unsigned? false cs exponent = some (Decimal.scaled n (exponent - places)) := by
  cases h with
  | whole hne hdigits =>
    simp only [Decimal.unsigned?, List.takeWhile_eq_self_iff.2 (ne_point hdigits),
      List.dropWhile_eq_nil_iff.2 (ne_point hdigits), List.drop_nil, List.append_nil,
      List.length_nil, Nat.cast_zero, List.all_eq_true.2 hdigits]
    rw [if_neg (by simp [hne])]
    rfl
  | point hne hdigits =>
    have hpoint := ne_point fun c hc => hdigits c (List.mem_append_left _ hc)
    simp only [Decimal.unsigned?, List.takeWhile_append_of_pos hpoint,
      List.dropWhile_append_of_pos hpoint, List.takeWhile_cons, List.dropWhile_cons,
      bne_self_eq_false, Bool.false_eq_true, if_false, List.append_nil, List.drop_one,
      List.tail_cons, List.all_eq_true.2 hdigits]
    rw [if_neg (by simp [hne])]

end IsMantissa

/-- The text of a whole number: a minus sign if it is negative, and digits. -/
theorem toList_toString (n : Int) :
    (toString n).toList = (if n < 0 then ['-'] else []) ++ toDigits 10 n.natAbs := by
  rw [Int.toString_eq_repr, Int.repr_eq_if]
  split
  · next h =>
    have habs : n.toNat = n.natAbs := by omega
    rw [if_neg (by omega), Nat.toList_repr, List.nil_append, habs]
  · next h =>
    have habs : (-n).toNat = n.natAbs := by omega
    rw [if_pos (by omega), String.toList_append, Nat.toList_repr, habs]
    rfl

/-- An exponent is read as it is written. -/
theorem signed?_toString (n : Int) : Decimal.signed? (toString n).toList = some n := by
  obtain ⟨c, cs, hcs⟩ := List.exists_cons_of_ne_nil (Nat.toDigits_ne_nil (n := n.natAbs) (b := 10))
  have hdigits : ∀ d ∈ c :: cs, d.isDigit = true := fun d hd =>
    isDigit_of_mem_digits (n := n.natAbs) (by rwa [hcs])
  have hvalue := ofDigits_digits n.natAbs
  rw [toList_toString, hcs]
  rw [hcs] at hvalue
  split
  · next h =>
    simp [Decimal.signed?, hvalue, List.all_eq_true.2 hdigits, abs_of_neg h]
  · next h =>
    have hminus : c ≠ '-' := by
      rintro rfl
      exact absurd (hdigits _ List.mem_cons_self) (by decide)
    have hplus : c ≠ '+' := by
      rintro rfl
      exact absurd (hdigits _ List.mem_cons_self) (by decide)
    simp [Decimal.signed?, hminus, hplus, hvalue, List.all_eq_true.2 hdigits,
      abs_of_nonneg (Int.not_lt.1 h)]

/-! ### Values -/

namespace IsMantissa

variable {cs : List Char} {n places : Nat}

theorem ne_mark (h : IsMantissa cs n places) : ∀ c ∈ cs, (c != 'ᴇ') = true := by
  intro c hc
  rw [bne_iff_ne]
  rintro rfl
  rcases h.mem _ hc with hdigit | hpoint
  · exact absurd hdigit (by decide)
  · exact absurd hpoint (by decide)

/-- Without a mark the exponent is zero. -/
theorem numeralValue?_eq (h : IsMantissa cs n places) :
    numeralValue? cs = some (Decimal.scaled n (-places)) := by
  simp only [numeralValue?, List.takeWhile_eq_self_iff.2 h.ne_mark,
    List.dropWhile_eq_nil_iff.2 h.ne_mark, List.isEmpty_nil, if_true, h.unsigned?_eq, Int.zero_sub]

/-- Behind a mark stands the exponent. -/
theorem numeralValue?_mark (h : IsMantissa cs n places) (exponent : Int) :
    numeralValue? (cs ++ 'ᴇ' :: (toString exponent).toList) =
      some (Decimal.scaled n (exponent - places)) := by
  simp only [numeralValue?, List.takeWhile_append_of_pos h.ne_mark,
    List.dropWhile_append_of_pos h.ne_mark, List.takeWhile_cons, List.dropWhile_cons,
    bne_self_eq_false, Bool.false_eq_true, if_false, List.append_nil, List.isEmpty_cons,
    List.tail_cons, signed?_toString, Option.bind_some, h.unsigned?_eq]

theorem continuesNumeral (h : IsMantissa cs n places) (p : Char) :
    ∀ c ∈ cs, continuesNumeral p c = true := by
  intro c hc
  rcases h.mem c hc with hdigit | rfl
  · simp [Resolvent.continuesNumeral, hdigit]
  · simp [Resolvent.continuesNumeral]

theorem isChain (h : IsMantissa cs n places) :
    cs.IsChain fun p d => Resolvent.continuesNumeral p d = true :=
  List.Pairwise.isChain (List.pairwise_of_forall_mem_list fun p _ d hd => h.continuesNumeral p d hd)

theorem isNumeral (h : IsMantissa cs n places) : IsNumeral cs := by
  obtain ⟨c, ds, rfl, hc⟩ := h.exists_cons
  refine ⟨hc, h.isChain, fun hlast => ?_⟩
  exact absurd (h.ne_mark _ (List.mem_of_getLast? hlast)) (by decide)

/-- With an exponent, too. -/
theorem isNumeral_mark (h : IsMantissa cs n places) (exponent : Int) :
    IsNumeral (cs ++ 'ᴇ' :: (toString exponent).toList) := by
  have hdigit (p : Char) {c : Char} (hc : c ∈ toDigits 10 exponent.natAbs) :
      Resolvent.continuesNumeral p c = true := by
    simp [Resolvent.continuesNumeral, isDigit_of_mem_digits hc]
  have hdigits : (toDigits 10 exponent.natAbs).IsChain
      fun p d => Resolvent.continuesNumeral p d = true :=
    List.Pairwise.isChain (List.pairwise_of_forall_mem_list fun p _ d hd => hdigit p hd)
  have hexponent : ('ᴇ' :: (toString exponent).toList).IsChain
      fun p d => Resolvent.continuesNumeral p d = true := by
    rw [toList_toString]
    split
    · exact List.isChain_cons_cons.2 ⟨rfl, hdigits.cons fun d hd => hdigit _ (List.mem_of_head? hd)⟩
    · exact hdigits.cons fun d hd => hdigit _ (List.mem_of_head? hd)
  have hchain := List.isChain_append.2 ⟨h.isChain, hexponent, fun p _ d hd => by
    cases hd
    simp [Resolvent.continuesNumeral]⟩
  have hlast : (cs ++ 'ᴇ' :: (toString exponent).toList).getLast? ≠ some 'ᴇ' := by
    have hassoc (sign : List Char) : cs ++ 'ᴇ' :: (sign ++ toDigits 10 exponent.natAbs) =
        (cs ++ 'ᴇ' :: sign) ++ toDigits 10 exponent.natAbs := by simp
    rw [toList_toString, hassoc, List.getLast?_append_of_ne_nil _ Nat.toDigits_ne_nil]
    intro hlast
    exact absurd (isDigit_of_mem_digits (List.mem_of_getLast? hlast)) (by decide)
  obtain ⟨c, ds, rfl, hc⟩ := h.exists_cons
  exact ⟨hc, hchain, hlast⟩

end IsMantissa

/-- The digits of a whole number. -/
theorem isMantissa_digits (n : Nat) : IsMantissa (toDigits 10 n) n 0 := by
  have h : IsMantissa (toDigits 10 n) (Decimal.ofDigits (toDigits 10 n)) 0 :=
    .whole Nat.toDigits_ne_nil fun c hc => isDigit_of_mem_digits hc
  rwa [ofDigits_digits] at h

namespace Double

/-- The number that a decimal stands for. -/
def Decimal.value (x : Decimal) : Rat := Resolvent.Decimal.scaled x.digits x.exponent

theorem Decimal.toList_digits (x : Decimal) : (toString x.digits).toList = toDigits 10 x.digits :=
  Nat.toList_repr

/-- The positional text is a numeral for the decimal. -/
theorem Decimal.exists_isMantissa_positional (x : Decimal) : ∃ n places : Nat,
    IsMantissa x.positional.toList n places ∧ Resolvent.Decimal.scaled n (-places) = x.value := by
  have hdigit {c : Char} (hc : c ∈ toDigits 10 x.digits) : c.isDigit = true :=
    isDigit_of_mem_digits hc
  simp only [positional, toList_digits]
  split
  · next hexponent =>
    rw [String.toList_ofList]
    refine ⟨_, _, .whole (by simp) fun c hc => ?_, ?_⟩
    · rcases List.mem_append.1 hc with hc | hc
      · exact hdigit hc
      · rw [List.eq_of_mem_replicate hc]
        rfl
    · rw [ofDigits_zeros, ofDigits_digits]
      simp [value, Resolvent.Decimal.scaled, hexponent]
  · next hexponent =>
    split
    · next hplaces =>
      rw [String.toList_ofList]
      refine ⟨_, _, .point ?_ fun c hc => ?_, ?_⟩
      · intro hnil
        have hlength := congrArg List.length hnil
        rw [List.length_take, List.length_nil] at hlength
        omega
      · rw [List.take_append_drop] at hc
        exact hdigit hc
      · rw [List.take_append_drop, ofDigits_digits, List.length_drop, value]
        congr 1
        omega
    · next hplaces =>
      rw [String.toList_ofList]
      refine ⟨_, _, .point (List.cons_ne_nil '0' []) fun c hc => ?_, ?_⟩
      · simp only [List.cons_append, List.nil_append, List.mem_cons, List.mem_append] at hc
        rcases hc with rfl | hc | hc
        · rfl
        · rw [List.eq_of_mem_replicate hc]
          rfl
        · exact hdigit hc
      · have hzero : ['0'] ++ (List.replicate ((-x.exponent).toNat - (toDigits 10 x.digits).length) '0'
            ++ toDigits 10 x.digits) = List.replicate
            ((-x.exponent).toNat - (toDigits 10 x.digits).length + 1) '0' ++ toDigits 10 x.digits := rfl
        rw [hzero, ofDigits_zeros_append, ofDigits_digits, List.length_append, List.length_replicate,
          value]
        congr 1
        omega

/-- The scientific text is a numeral for the decimal. -/
theorem Decimal.exists_isMantissa_scientific (x : Decimal) : ∃ (mantissa : List Char) (places : Nat)
    (exponent : Int), (x.scientific 'ᴇ').toList = mantissa ++ 'ᴇ' :: (toString exponent).toList ∧
      IsMantissa mantissa x.digits places ∧
      Resolvent.Decimal.scaled x.digits (exponent - places) = x.value := by
  have hdigit {c : Char} (hc : c ∈ toDigits 10 x.digits) : c.isDigit = true :=
    isDigit_of_mem_digits hc
  simp only [scientific, toList_digits]
  have hvalue := ofDigits_digits x.digits
  have hne : toDigits 10 x.digits ≠ [] := Nat.toDigits_ne_nil
  generalize toDigits 10 x.digits = digits at hdigit hvalue hne
  rw [value, ← hvalue]
  rcases digits with - | ⟨first, - | ⟨second, rest⟩⟩
  · exact absurd rfl hne
  · refine ⟨[first], 0, _, String.toList_ofList, .whole (List.cons_ne_nil _ _) fun c hc => hdigit hc,
      ?_⟩
    congr 1
    simp
  · refine ⟨first :: '.' :: second :: rest, rest.length + 1, _, String.toList_ofList,
      .point (List.cons_ne_nil first []) (fun c hc => hdigit hc), ?_⟩
    congr 1
    simp
    omega

/-! ### Doubles -/

theorem scaled_neg (d e : Int) :
    Resolvent.Decimal.scaled (-d) e = -Resolvent.Decimal.scaled d e := by
  unfold Resolvent.Decimal.scaled
  split
  · push_cast
    ring
  · rw [Rat.neg_mkRat]

theorem mkRat_eq_scaled (d e : Int) :
    mkRat (d * (Nat.pow 10 e.toNat : Nat)) (Nat.pow 10 (-e).toNat) =
      Resolvent.Decimal.scaled d e := by
  unfold Resolvent.Decimal.scaled
  split
  · next h =>
    have hzero : (-e).toNat = 0 := by omega
    rw [hzero]
    exact Rat.mkRat_one _
  · next h =>
    have hzero : e.toNat = 0 := by omega
    rw [hzero]
    congr 1
    exact mul_one d

/-- What an encoding unpacks to has the sign of its first bit, unless it is no number. -/
theorem unpack_cases (bits : BitVec Format.binary64.numBits) :
    UnpackedFloat.unpack Format.binary64 bits = .notANumber ∨
      ∃ s, s = UnpackedFloat.Sign.ofBitVec (UnpackedFloat.unpackSign bits) ∧
        (UnpackedFloat.unpack Format.binary64 bits = .infinity s ∨
          UnpackedFloat.unpack Format.binary64 bits = .zero s ∨
          ∃ m e h, UnpackedFloat.unpack Format.binary64 bits = .finite s m e h) := by
  unfold UnpackedFloat.unpack
  dsimp only
  split
  · split
    · exact .inr ⟨_, rfl, .inl rfl⟩
    · exact .inl rfl
  · split
    · split
      · exact .inr ⟨_, rfl, .inr (.inl rfl)⟩
      · next hmantissa =>
        have hpos := Nat.pos_of_ne_zero fun h => hmantissa (BitVec.eq_of_toNat_eq h)
        exact .inr ⟨_, rfl, .inr (.inr ⟨_, _, hpos, rfl⟩)⟩
    · generalize_proofs hpos
      exact .inr ⟨_, rfl, .inr (.inr ⟨_, _, hpos, rfl⟩)⟩

/-- The sign bit of a finite double other than zero says whether it is less than zero. -/
theorem lt_zero_iff_negative {x : Float} (hfinite : x.isFinite = true)
    (hzero : (x == 0.0) = false) : x < 0.0 ↔ (parts x).negative = true := by
  have hfinite : UnpackedFloat.isFinite x.toModel.unpack = true := hfinite
  have hzero : UnpackedFloat.beq x.toModel.unpack (.zero .positive) = false := hzero
  rw [lt_zero_iff, negative_iff]
  unfold Float.Model.unpack at *
  rcases unpack_cases x.toModel.toBits.toBitVec with h | ⟨s, hs, h | h | ⟨m, e, hm, h⟩⟩
  · rw [h] at hfinite
    cases hfinite
  · rw [h] at hfinite
    cases hfinite
  · rw [h] at hzero
    cases hzero
  · rw [h]
    unfold UnpackedFloat.Sign.ofBitVec at hs
    split at hs
    · next hbit =>
      subst hs
      exact ⟨fun hlt => (Bool.false_ne_true hlt).elim, fun hne => absurd hbit hne⟩
    · next hbit =>
      subst hs
      exact ⟨fun _ => hbit, fun _ => rfl⟩

theorem not_lt_zero_of_beq {x : Float} (h : (x == 0.0) = true) : ¬ x < 0.0 := by
  have h : UnpackedFloat.beq x.toModel.unpack (.zero .positive) = true := h
  rw [lt_zero_iff]
  generalize x.toModel.unpack = u at h
  cases u with
  | zero s => exact Bool.false_ne_true
  | notANumber => cases h
  | infinity s =>
    cases s with
    | positive => cases h
    | negative => cases h
  | finite s m e hm =>
    cases s with
    | positive => cases h
    | negative => cases h

/-- The text of a finite double without its sign. -/
def numeral (x : Float) : List Char :=
  if x == 0.0 then ['0']
  else if isPositionalExponent x.abs.log10.floor then (shortest x).positional.toList
  else ((shortest x).scientific 'ᴇ').toList

variable {x : Float}

/-- The text of a finite double: a minus sign if it is negative, and a numeral. -/
theorem toList_calculatorText (h : x.isFinite = true) :
    (calculatorText x).toList = (if x < 0.0 then ['-'] else []) ++ numeral x := by
  unfold calculatorText numeral
  by_cases hzero : (x == 0.0) = true
  · rw [if_pos hzero, if_pos hzero, if_neg (not_lt_zero_of_beq hzero)]
    rfl
  · rw [if_neg hzero, if_neg hzero, h, Bool.not_true, if_neg Bool.false_ne_true]
    have hsign := lt_zero_iff_negative h (eq_false_of_ne_true hzero)
    by_cases hneg : (parts x).negative = true
    · simp only [withSign, hneg, if_true, if_pos (hsign.2 hneg), String.toList_append]
      split <;> rfl
    · simp only [withSign, hneg, Bool.false_eq_true, if_false, if_neg (mt hsign.1 hneg)]
      split <;> rfl

theorem isNumeral_numeral (x : Float) : IsNumeral (numeral x) := by
  unfold numeral
  split
  · exact (isMantissa_digits 0).isNumeral
  · split
    · obtain ⟨n, places, h, -⟩ := (shortest x).exists_isMantissa_positional
      exact h.isNumeral
    · obtain ⟨mantissa, places, exponent, heq, h, -⟩ := (shortest x).exists_isMantissa_scientific
      rw [heq]
      exact h.isNumeral_mark exponent

/-- The text of a finite double is read as its shortest digits. -/
theorem exists_numeralValue?_numeral (h : x.isFinite = true) : ∃ q, numeralValue? (numeral x) = some q ∧
    shortestRational? x = some (if x < 0.0 then -q else q) := by
  unfold numeral shortestRational?
  rw [h, Bool.not_true, if_neg Bool.false_ne_true]
  by_cases hzero : (x == 0.0) = true
  · have hvalue : numeralValue? ['0'] = some 0 := (isMantissa_digits 0).numeralValue?_eq
    rw [if_pos hzero, if_pos hzero]
    exact ⟨0, hvalue, by rw [if_neg (not_lt_zero_of_beq hzero)]⟩
  · have hvalue : numeralValue? (if isPositionalExponent x.abs.log10.floor then
        (shortest x).positional.toList else ((shortest x).scientific 'ᴇ').toList) =
          some (shortest x).value := by
      split
      · obtain ⟨n, places, hmantissa, hn⟩ := (shortest x).exists_isMantissa_positional
        rw [hmantissa.numeralValue?_eq, hn]
      · obtain ⟨mantissa, places, exponent, heq, hmantissa, hn⟩ :=
          (shortest x).exists_isMantissa_scientific
        rw [heq, hmantissa.numeralValue?_mark, hn]
    refine ⟨_, by rw [if_neg hzero, hvalue], ?_⟩
    have hsign := lt_zero_iff_negative h (eq_false_of_ne_true hzero)
    rw [if_neg hzero]
    simp only [mkRat_eq_scaled, Decimal.value]
    congr 1
    by_cases hneg : (parts x).negative = true
    · rw [if_pos hneg, if_pos (hsign.2 hneg), scaled_neg]
    · rw [if_neg hneg, if_neg (mt hsign.1 hneg)]

end Double

end Resolvent

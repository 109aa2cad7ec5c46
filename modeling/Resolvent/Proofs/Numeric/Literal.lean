import Mathlib.Algebra.Field.Rat
import Mathlib.Data.List.Induction
import Mathlib.Tactic.FieldSimp
import Mathlib.Tactic.Ring
import Resolvent.Number.Decimal

/-!
# Decimal literals are read exactly

`Literal` is the grammar of decimal literals: an optional minus sign, digits with at most one point,
and an optional exponent that fits a word of 64 bits.  What is not such a literal is not read, and a
literal is read as the number it denotes, as long as the exponent less the number of digits behind
the point is above the least word (`parse?_literal`).

Below, the computation in words goes astray.  The least word has no opposite, so the literal is
refused although it belongs to the grammar; a smaller difference wraps around to a positive one.
-/

namespace Resolvent.Decimal

/-! ### The grammar -/

/-- The sign of an exponent. -/
inductive Sign
  | absent
  | plus
  | minus

/-- A sign as it is written. -/
def Sign.chars : Sign → List Char
  | absent => []
  | plus => ['+']
  | minus => ['-']

/-- A number with a sign in front. -/
def Sign.apply : Sign → Nat → Int
  | minus, n => -n
  | _, n => n

/-- An exponent with its mark. -/
structure Power where
  mark : Char
  sign : Sign
  digits : List Char
  isExponentMark : isExponentMark mark = true
  ne_nil : digits ≠ []
  isDigit : ∀ c ∈ digits, c.isDigit = true
  isInt64 : Width.isInt64 (sign.apply (ofDigits digits)) = true

namespace Power

/-- An exponent as it is written. -/
def chars (p : Power) : List Char := p.mark :: (p.sign.chars ++ p.digits)

def value (p : Power) : Int := p.sign.apply (ofDigits p.digits)

end Power

/-- A decimal literal: digits before a point, digits behind it if there is one, and an exponent. -/
structure Literal where
  negative : Bool
  whole : List Char
  fraction : Option (List Char)
  power : Option Power
  ne_nil : whole ++ fraction.getD [] ≠ []
  isDigit : ∀ c ∈ whole ++ fraction.getD [], c.isDigit = true

namespace Literal

variable (l : Literal)

/-- The digits and the point. -/
def mantissa : List Char := l.whole ++ l.fraction.elim [] ('.' :: ·)

/-- A literal as it is written. -/
def chars : List Char :=
  (if l.negative then ['-'] else []) ++ l.mantissa ++ l.power.elim [] Power.chars

/-- The number of digits behind the point. -/
def places : Nat := (l.fraction.getD []).length

def exponent : Int := l.power.elim 0 Power.value

/-- The number that a literal denotes. -/
def value : Rat :=
  (if l.negative then -1 else 1) *
    (ofDigits l.whole + ofDigits (l.fraction.getD []) / 10 ^ l.places) * 10 ^ l.exponent

/-- All digits with the sign in front, as if there were no point. -/
def digits : Int :=
  if l.negative then -ofDigits (l.whole ++ l.fraction.getD [])
  else ofDigits (l.whole ++ l.fraction.getD [])

/-- The computations with the exponent stay in the range of signed words of 64 bits. -/
structure InRange : Prop where
  places : Width.isInt64 l.places = true
  scale : Width.isInt64 (l.exponent - l.places) = true
  opposite : Width.isInt64 (-(l.exponent - l.places)) = true

end Literal

/-! ### Digits -/

theorem ofDigits_concat (cs ds : List Char) :
    ofDigits (cs ++ ds) = ofDigits cs * 10 ^ ds.length + ofDigits ds := by
  induction ds using List.reverseRecOn with
  | nil => simp [ofDigits_nil]
  | append_singleton ds d ih =>
    rw [← List.append_assoc, ofDigits_append_singleton, ofDigits_append_singleton, ih,
      List.length_append, List.length_singleton]
    ring

theorem scaled_eq (n s : Int) : scaled n s = n * 10 ^ s := by
  unfold scaled
  split
  · next h =>
    obtain ⟨k, rfl⟩ := Int.eq_ofNat_of_zero_le h
    simp
  · next h =>
    obtain ⟨k, rfl⟩ : ∃ k : Nat, s = -k := ⟨(-s).toNat, by omega⟩
    rw [neg_neg, Int.toNat_natCast, Rat.mkRat_eq_div, zpow_neg, zpow_natCast, div_eq_mul_inv]
    simp

theorem ne_of_isDigit {c d : Char} (h : c.isDigit = true) (hd : d.isDigit = false) : c ≠ d := by
  rintro rfl
  rw [h] at hd
  cases hd

theorem not_isExponentMark_of_isDigit {c : Char} (h : c.isDigit = true) :
    isExponentMark c = false := by
  simp [isExponentMark, ne_of_isDigit h]

theorem signed?_chars (s : Sign) {ds : List Char} (hne : ds ≠ [])
    (hdigits : ∀ c ∈ ds, c.isDigit = true) :
    signed? (s.chars ++ ds) = some (s.apply (ofDigits ds)) := by
  obtain ⟨c, cs, rfl⟩ := List.exists_cons_of_ne_nil hne
  have hall := List.all_eq_true.2 hdigits
  have hfirst := hdigits c List.mem_cons_self
  have hminus : c ≠ '-' := ne_of_isDigit hfirst rfl
  have hplus : c ≠ '+' := ne_of_isDigit hfirst rfl
  cases s <;> simp [signed?, Sign.chars, Sign.apply, hall, hminus, hplus]

/-- Only digits behind a sign are a whole number. -/
theorem exists_of_signed? {cs : List Char} {n : Int} (h : signed? cs = some n) :
    ∃ (s : Sign) (ds : List Char), ds ≠ [] ∧ (∀ c ∈ ds, c.isDigit = true) ∧
      cs = s.chars ++ ds ∧ n = s.apply (ofDigits ds) := by
  have key : ∀ (negative : Bool) (ds : List Char),
      (if (ds.isEmpty || !ds.all Char.isDigit) = true then none
        else some (if negative then -(ofDigits ds : Int) else (ofDigits ds : Int))) = some n →
      ds ≠ [] ∧ (∀ c ∈ ds, c.isDigit = true) ∧
        n = if negative then -(ofDigits ds : Int) else (ofDigits ds : Int) := by
    intro negative ds h
    split at h
    · cases h
    · next hnot =>
      rw [Bool.or_eq_true, not_or, List.isEmpty_iff, Bool.not_eq_true', Bool.not_eq_false,
        List.all_eq_true] at hnot
      exact ⟨hnot.1, hnot.2, (Option.some.inj h).symm⟩
  unfold signed? at h
  split at h
  next negative ds hcut =>
  obtain ⟨hne, hdigits, hn⟩ := key negative ds h
  split at hcut
  · cases hcut
    exact ⟨.minus, ds, hne, hdigits, rfl, hn⟩
  · cases hcut
    exact ⟨.plus, ds, hne, hdigits, rfl, hn⟩
  · cases hcut
    exact ⟨.absent, _, hne, hdigits, rfl, hn⟩

namespace Power

variable (p : Power)

theorem int64?_chars : int64? (p.sign.chars ++ p.digits) = some p.value :=
  int64?_eq_some_iff.2
    ⟨signed?_chars p.sign p.ne_nil p.isDigit, p.isInt64⟩

end Power

/-! ### Literals are cut into their parts -/

namespace Literal

variable {l : Literal}

theorem isDigit_whole {c : Char} (h : c ∈ l.whole) : c.isDigit = true :=
  l.isDigit c (List.mem_append_left _ h)

theorem ne_point {c : Char} (h : c ∈ l.whole) : (c != '.') = true :=
  bne_iff_ne.2 (ne_of_isDigit (isDigit_whole h) rfl)

/-- The characters of a mantissa are digits and points. -/
theorem isDigit_or_eq_of_mem {c : Char} (h : c ∈ l.mantissa) : c.isDigit = true ∨ c = '.' := by
  rw [mantissa, List.mem_append] at h
  rcases h with h | h
  · exact .inl (isDigit_whole h)
  · cases hf : l.fraction with
    | none => rw [hf] at h; cases h
    | some ds =>
      rw [hf, Option.elim_some, List.mem_cons] at h
      rcases h with rfl | h
      · exact .inr rfl
      · exact .inl (l.isDigit c (by rw [hf]; exact List.mem_append_right _ h))

theorem whole_mantissa : l.mantissa.takeWhile (· != '.') = l.whole := by
  rw [mantissa, List.takeWhile_append_of_pos fun _ => ne_point]
  cases l.fraction <;> simp

theorem behindPoint_mantissa : behindPoint l.mantissa = l.fraction.getD [] := by
  rw [behindPoint, mantissa, List.dropWhile_append_of_pos fun _ => ne_point]
  cases l.fraction <;> simp

theorem unsigned?_mantissa (e : Int) : unsigned? l.negative l.mantissa e =
    some ((l.digits : Rat) * 10 ^ (e - l.places)) := by
  have hnot : ¬((l.whole ++ l.fraction.getD []).isEmpty ||
      !(l.whole ++ l.fraction.getD []).all Char.isDigit) = true := by
    simp [List.all_eq_true.2 l.isDigit, l.ne_nil]
  rw [unsigned?, whole_mantissa, ← behindPoint, behindPoint_mantissa]
  dsimp only
  rw [if_neg hnot, scaled_eq]
  rfl

/-- The exponent mark is the first one. -/
theorem not_isExponentMark_of_mem {c : Char}
    (h : c ∈ (if l.negative then ['-'] else []) ++ l.mantissa) :
    (!isExponentMark c) = true := by
  rw [Bool.not_eq_true']
  rw [List.mem_append] at h
  rcases h with h | h
  · cases hn : l.negative with
    | true =>
      rw [hn, if_pos rfl, List.mem_singleton] at h
      rw [h]
      rfl
    | false => rw [hn] at h; cases h
  · rcases isDigit_or_eq_of_mem h with h | rfl
    · exact not_isExponentMark_of_isDigit h
    · rfl

theorem takeWhile_chars : l.chars.takeWhile (fun c => !isExponentMark c) =
    (if l.negative then ['-'] else []) ++ l.mantissa := by
  rw [chars, List.takeWhile_append_of_pos fun _ => not_isExponentMark_of_mem]
  cases l.power with
  | none => simp
  | some p => simp [Power.chars, p.isExponentMark]

theorem dropWhile_chars : l.chars.dropWhile (fun c => !isExponentMark c) =
    l.power.elim [] Power.chars := by
  rw [chars, List.dropWhile_append_of_pos fun _ => not_isExponentMark_of_mem]
  cases l.power with
  | none => simp
  | some p => simp [Power.chars, p.isExponentMark]

theorem cutMinus_of_mantissa :
    cutMinus ((if l.negative then ['-'] else []) ++ l.mantissa) = (l.negative, l.mantissa) := by
  cases l.negative with
  | true => rfl
  | false =>
    have hne : ∀ rest, l.mantissa ≠ '-' :: rest := by
      intro rest h
      have hmem : '-' ∈ l.mantissa := h ▸ List.mem_cons_self
      rcases isDigit_or_eq_of_mem hmem with h | h <;> exact absurd h (by decide)
    change cutMinus l.mantissa = _
    unfold cutMinus
    split
    · next h => exact absurd h (hne _)
    · rfl

theorem exponent?_power : exponent? (l.power.elim [] Power.chars) = some l.exponent := by
  rw [exponent]
  cases l.power with
  | none => rfl
  | some p => exact p.int64?_chars

theorem value_eq : l.value = l.digits * 10 ^ (l.exponent - l.places) := by
  have hten : (10 : Rat) ≠ 0 := by norm_num
  rw [value, digits, ofDigits_concat, ← places, zpow_sub₀ hten, zpow_natCast]
  cases l.negative <;> simp <;> field_simp

/-- A literal is its digits times the power of ten that is computed from its exponent. -/
theorem parseTrimmed?_chars : parseTrimmed? l.chars =
    (scale? l.exponent l.places).map fun scale => (l.digits : Rat) * 10 ^ scale := by
  rw [parseTrimmed?, takeWhile_chars, dropWhile_chars, cutMinus_of_mantissa, exponent?_power]
  dsimp only
  rw [behindPoint_mantissa, ← places, Option.bind_eq_bind, Option.bind_some]
  cases scale? l.exponent l.places with
  | none => rfl
  | some s => rw [Option.bind_some, unsigned?_mantissa, add_sub_cancel_right, Option.map_some]

end Literal

/-! ### Nothing else is read -/

/-- What is left begins with a character that is not wanted. -/
theorem dropWhile_cases (p : Char → Bool) (cs : List Char) :
    cs.dropWhile p = [] ∨ ∃ c ds, cs.dropWhile p = c :: ds ∧ p c = false := by
  cases hds : cs.dropWhile p with
  | nil => exact .inl rfl
  | cons c ds =>
    have hne : cs.dropWhile p ≠ [] := by rw [hds]; exact List.cons_ne_nil c ds
    refine .inr ⟨c, ds, rfl, ?_⟩
    have hhead := List.head_dropWhile_not p hne
    simpa only [hds, List.head_cons] using hhead

theorem append_of_cutMinus {cs ds : List Char} {negative : Bool} (h : cutMinus cs = (negative, ds)) :
    cs = (if negative then ['-'] else []) ++ ds := by
  unfold cutMinus at h
  split at h <;> cases h <;> rfl

theorem exists_mantissa {negative : Bool} {cs : List Char} {e : Int} {v : Rat}
    (h : unsigned? negative cs e = some v) :
    ∃ (whole : List Char) (fraction : Option (List Char)),
      cs = whole ++ fraction.elim [] ('.' :: ·) ∧ whole ++ fraction.getD [] ≠ [] ∧
        ∀ c ∈ whole ++ fraction.getD [], c.isDigit = true := by
  have hcut := List.takeWhile_append_dropWhile (p := (· != '.')) (l := cs)
  rw [unsigned?] at h
  dsimp only at h
  split at h
  · cases h
  · next hnot =>
    rw [Bool.or_eq_true, not_or, List.isEmpty_iff, Bool.not_eq_true', Bool.not_eq_false,
      List.all_eq_true] at hnot
    rcases dropWhile_cases (· != '.') cs with hds | ⟨c, es, hds, hc⟩
    · rw [hds] at hnot hcut
      exact ⟨_, none, hcut.symm, hnot⟩
    · obtain rfl : c = '.' := by simpa using hc
      rw [hds] at hnot hcut
      exact ⟨_, some es, hcut.symm, hnot⟩

theorem exists_power {cs : List Char} {e : Int}
    (h : exponent? (cs.dropWhile fun c => !isExponentMark c) = some e) :
    ∃ power : Option Power, cs.dropWhile (fun c => !isExponentMark c) = power.elim [] Power.chars := by
  rcases dropWhile_cases (fun c => !isExponentMark c) cs with hds | ⟨c, es, hds, hc⟩
  · exact ⟨none, hds⟩
  · rw [hds] at h ⊢
    obtain ⟨hsigned, hfits⟩ := int64?_eq_some_iff.1 h
    obtain ⟨s, ds, hne, hdigits, rfl, rfl⟩ := exists_of_signed? hsigned
    exact ⟨some ⟨c, s, ds, by simpa using hc, hne, hdigits, hfits⟩, rfl⟩

/-- Only literals are read. -/
theorem exists_literal {cs : List Char} {v : Rat} (h : parseTrimmed? cs = some v) :
    ∃ l : Literal, cs = l.chars := by
  have hcut := List.takeWhile_append_dropWhile (p := fun c => !isExponentMark c) (l := cs)
  rw [parseTrimmed?] at h
  cases hminus : cutMinus (cs.takeWhile fun c => !isExponentMark c) with
  | mk negative mantissa =>
    rw [hminus] at h
    dsimp only at h
    obtain ⟨exponent, hexponent, h⟩ := Option.bind_eq_some_iff.1 h
    obtain ⟨scale, -, h⟩ := Option.bind_eq_some_iff.1 h
    obtain ⟨power, hpower⟩ := exists_power hexponent
    obtain ⟨whole, fraction, rfl, hne, hdigits⟩ := exists_mantissa h
    rw [append_of_cutMinus hminus, hpower] at hcut
    exact ⟨⟨negative, whole, fraction, power, hne, hdigits⟩, hcut.symm⟩

/-! ### The computation of the scale -/

variable {e : Int} {places : Nat}

/-- Where the difference and its opposite fit a word, the scale is the difference. -/
theorem scale?_of_inRange (hplaces : Width.isInt64 places = true)
    (hscale : Width.isInt64 (e - places) = true) (hopposite : Width.isInt64 (-(e - places)) = true) :
    scale? e places = some (e - places) := by
  have hpos : ¬(e - places < 0 ∧ -(e - places : Int) < 0) := by omega
  rw [scale?, if_pos hplaces]
  dsimp only
  rw [Width.wrap64_of_isInt64 hscale, Width.wrap64_of_isInt64 hopposite, if_neg hpos]

/-- The least word has no opposite. -/
theorem scale?_least (hplaces : Width.isInt64 places = true)
    (hscale : e - places = -9223372036854775808) : scale? e places = none := by
  rw [scale?, if_pos hplaces, hscale]
  rfl

/-- A difference below the least word wraps around. -/
theorem scale?_below (hplaces : Width.isInt64 places = true) (he : Width.isInt64 e = true)
    (hscale : e - places < -9223372036854775808) :
    scale? e places = some (e - places + 18446744073709551616) := by
  rw [Width.isInt64_iff] at he
  have hfits := Width.isInt64_iff.1 hplaces
  have hwrap : Width.wrap64 (e - places) = e - places + 18446744073709551616 := by
    rw [Width.wrap64, Int.bmod_def]
    omega
  rw [scale?, if_pos hplaces, hwrap]
  dsimp only
  rw [if_neg (by omega)]

theorem scale?_of_not_isInt64 (hplaces : ¬Width.isInt64 places = true) : scale? e places = none :=
  if_neg hplaces

/-! ### Texts -/

namespace Literal

variable {l : Literal}

theorem isInt64_exponent : Width.isInt64 l.exponent = true := by
  rw [exponent]
  cases l.power with
  | none => rfl
  | some p => exact p.isInt64

/-- The computations stay in range exactly if the difference is above the least word. -/
theorem inRange_iff : l.InRange ↔
    Width.isInt64 l.places = true ∧ -9223372036854775808 < l.exponent - l.places := by
  have hexponent := Width.isInt64_iff.1 (isInt64_exponent (l := l))
  constructor
  · rintro ⟨hplaces, -, hopposite⟩
    rw [Width.isInt64_iff] at hopposite
    exact ⟨hplaces, by omega⟩
  · rintro ⟨hplaces, hscale⟩
    have hfits := Width.isInt64_iff.1 hplaces
    exact ⟨hplaces, Width.isInt64_iff.2 (by omega), Width.isInt64_iff.2 (by omega)⟩

end Literal

/-- Only literals are read.  A literal is read as the number that it denotes if the computations with
its exponent stay in range; if they do not, it is refused, or read as another number unless that is
zero. -/
theorem parse?_literal (text : String) :
    (∀ v, parse? text = some v → ∃ l : Literal, Text.trim text.toList = l.chars) ∧
    ∀ l : Literal, Text.trim text.toList = l.chars →
      (l.InRange → parse? text = some l.value) ∧
      (Width.isInt64 l.places = false → parse? text = none) ∧
      (Width.isInt64 l.places = true →
        (l.exponent - l.places = -9223372036854775808 → parse? text = none) ∧
        (l.exponent - l.places < -9223372036854775808 →
          parse? text = some (l.value * 10 ^ (18446744073709551616 : Int)))) := by
  refine ⟨fun v h => exists_literal h, fun l hl => ?_⟩
  have hparse : parse? text =
      (scale? l.exponent l.places).map fun scale => (l.digits : Rat) * 10 ^ scale := by
    rw [parse?, hl, Literal.parseTrimmed?_chars]
  rw [hparse]
  refine ⟨fun h => ?_, fun h => ?_, fun h => ⟨fun hscale => ?_, fun hscale => ?_⟩⟩
  · rw [scale?_of_inRange h.places h.scale h.opposite, Option.map_some, Literal.value_eq]
  · rw [scale?_of_not_isInt64 (by simp [h]), Option.map_none]
  · rw [scale?_least h hscale, Option.map_none]
  · have hten : (10 : Rat) ≠ 0 := by norm_num
    rw [scale?_below h Literal.isInt64_exponent hscale, Option.map_some, Literal.value_eq,
      zpow_add₀ hten, mul_assoc]

/-- A small number is read, and nought with the least exponent is not. -/
theorem parse?_literal_least :
    (∃ l : Literal, Text.trim " 4.4ᴇ-9 ".toList = l.chars ∧ l.InRange ∧ l.value = 44 / 10 ^ 10 ∧
      parse? " 4.4ᴇ-9 " = some l.value) ∧
    ∃ l : Literal, Text.trim "0e-9223372036854775808".toList = l.chars ∧ l.value = 0 ∧
      parse? "0e-9223372036854775808" = none := by
  constructor
  · let power : Power := ⟨'ᴇ', .minus, ['9'], rfl, List.cons_ne_nil _ _, List.all_eq_true.1 rfl, rfl⟩
    let l : Literal :=
      ⟨false, ['4'], some ['4'], some power, List.cons_ne_nil _ _, List.all_eq_true.1 rfl⟩
    have hchars : Text.trim " 4.4ᴇ-9 ".toList = l.chars := by decide +kernel
    have hrange : l.InRange := Literal.inRange_iff.2 (by decide)
    have hvalue : l.value = 44 / 10 ^ 10 := by
      rw [Literal.value_eq]
      change ((44 : Int) : Rat) * 10 ^ (-10 : Int) = 44 / 10 ^ 10
      norm_num
    exact ⟨l, hchars, hrange, hvalue, ((parse?_literal " 4.4ᴇ-9 ").2 l hchars).1 hrange⟩
  · let power : Power := ⟨'e', .minus, ['9', '2', '2', '3', '3', '7', '2', '0', '3', '6', '8', '5', '4',
      '7', '7', '5', '8', '0', '8'], rfl, List.cons_ne_nil _ _, List.all_eq_true.1 rfl, rfl⟩
    let l : Literal := ⟨false, ['0'], none, some power, List.cons_ne_nil _ _, List.all_eq_true.1 rfl⟩
    have hchars : Text.trim "0e-9223372036854775808".toList = l.chars := by decide +kernel
    have hvalue : l.value = 0 := by
      rw [Literal.value_eq]
      change ((0 : Int) : Rat) * _ = 0
      rw [Int.cast_zero, zero_mul]
    refine ⟨l, hchars, hvalue, ?_⟩
    exact (((parse?_literal "0e-9223372036854775808").2 l hchars).2.2 (by decide)).1 (by decide)

end Resolvent.Decimal

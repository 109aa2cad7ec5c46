import Resolvent.Proofs.Expression.Reading
import Resolvent.Proofs.Expression.WellFormed
import Resolvent.Solve.Solution
import Resolvent.Term.Import

/-!
# Texts are read as their expressions

The text of a readable expression, read as usual, has the value of the expression
(`Expression.reading_text`), so no two expressions with different values have one text
(`Arena.value_of_text`).  In particular the two expressions of a solution that is shown as one have
one value (`Solution.value_of_identity`).

`Expression.Understood` is the invariant of the induction.  The signs of an expression are read as its
value wherever the text may put them without parentheses: as a sum, as a term, as a part of a product,
as a factor, or as an operand.  Terms may stand behind a minus sign, and products behind a minus sign
or a factor, because the laws of a `Semantics` take the first factor out of such contexts.

A power of a fraction is not readable, nor is a sum with a later term that begins with a negative
fraction: their texts are those of other expressions (`Expression.text_power_fraction`,
`Expression.text_sum_hidesMinus`).  Of the names that are accepted, those are readable that are no
mixture of names and signs (`isWord_iff_of_isName`).
-/

namespace Resolvent

open Token Reading
open Nat (toDigits)

namespace Expression

variable {V : Type} {I : Semantics V} {name : Nat → String} {e : Expression} {v : V}

/-- The signs of the expression are read as its value where they stand without parentheses. -/
structure Understood (I : Semantics V) (name : Nat → String) (e : Expression) (v : V) : Prop where
  asSum : ReadsSum I (tokens name e) v
  asTerm : (∀ args, e ≠ sum args) → Reads I [I.mul, I.div] (tokens name e) v
  asProduct : e.isCompoundFactor = false → Reads I [I.mul] (tokens name e) v
  asFactor : e.isCompoundDenominator = false → Reads I [] (tokens name e) v
  asOperand : e.isCompoundPower = false → e.isBareFraction = false → Operates I (tokens name e) v

/-! ### Kinds of expressions -/

theorem understood_of_operates (h : Operates I (tokens name e) v) : Understood I name e v :=
  have hreads : Reads I [] (tokens name e) v := h.reads
  ⟨hreads.sum, fun _ => h.reads, fun _ => h.reads, fun _ => h.reads, fun _ _ => h⟩

theorem understood_of_factor (h : Reads I [] (tokens name e) v) (hpower : e.isCompoundPower = true) :
    Understood I name e v :=
  ⟨h.sum, fun _ => h.anywhere, fun _ => h.anywhere, fun _ => h,
    fun hfalse => Bool.noConfusion (hpower.symm.trans hfalse)⟩

theorem understood_of_term (h : Reads I [I.mul, I.div] (tokens name e) v)
    (hfactor : e.isCompoundFactor = true) (hdenominator : e.isCompoundDenominator = true)
    (hpower : e.isCompoundPower = true ∨ e.isBareFraction = true) : Understood I name e v :=
  ⟨h.sum, fun _ => h, fun hfalse => Bool.noConfusion (hfactor.symm.trans hfalse),
    fun hfalse => Bool.noConfusion (hdenominator.symm.trans hfalse), fun hfalse hbare =>
      hpower.elim (fun htrue => Bool.noConfusion (htrue.symm.trans hfalse))
        fun htrue => Bool.noConfusion (htrue.symm.trans hbare)⟩

namespace Understood

variable (h : Understood I name e v)

include h

theorem groupedOperand (hbare : e.isBareFraction = false) :
    Operates I (groupedTokens e.isCompoundPower (tokens name e)) v := by
  cases hcompound : e.isCompoundPower with
  | true => exact h.asSum.group
  | false => exact h.asOperand hcompound hbare

theorem groupedFactor : Reads I [I.mul] (groupedTokens e.isCompoundFactor (tokens name e)) v := by
  cases hcompound : e.isCompoundFactor with
  | true => exact h.asSum.group.reads
  | false => exact h.asProduct hcompound

theorem groupedDenominator :
    Reads I [] (groupedTokens e.isCompoundDenominator (tokens name e)) v := by
  cases hcompound : e.isCompoundDenominator with
  | true => exact h.asSum.group.reads
  | false => exact h.asFactor hcompound

theorem groupedNumerator :
    Reads I [I.mul, I.div] (groupedTokens e.isSumOrQuotient (tokens name e)) v := by
  cases hcompound : e.isSumOrQuotient with
  | true => exact h.asSum.group.reads
  | false => exact h.asTerm (by rintro args rfl; cases hcompound)

theorem groupedOpposite :
    Reads I [I.mul, I.div] (groupedTokens e.isCompoundOpposite (tokens name e)) v := by
  cases hcompound : e.isCompoundOpposite with
  | true => exact h.asSum.group.reads
  | false => exact h.asTerm (by rintro args rfl; cases hcompound)

end Understood

/-! ### Numbers -/

theorem passes_neg : ∀ op ∈ [I.mul, I.div], Passes op I.neg := by
  intro op hop
  simp only [List.mem_cons, List.not_mem_nil, or_false] at hop
  rcases hop with rfl | rfl
  · exact fun _ _ _ _ => I.neg_mul
  · exact fun _ _ _ _ => I.neg_div

theorem numeralValue?_digits (n : Nat) : numeralValue? (toDigits 10 n) = some (n : Rat) :=
  (isMantissa_digits n).numeralValue?_eq.trans (by simp [Decimal.scaled])

/-- A sign and an unsigned number. -/
theorem reads_signed {ops : List (V → V → Option V)} {ts : List Token} {q : Rat}
    (h : Reads I ops ts (I.number q)) (hneg : ∀ op ∈ ops, Passes op I.neg) (negative : Bool) :
    Reads I ops (signed negative ts) (I.number (if negative then -q else q)) := by
  cases negative with
  | true => exact h.opposite (I.neg_number q) hneg
  | false => exact h

/-- Literals that are written with one numeral. -/
theorem understood_of_numeral {digits : List Char} {q : Rat} {negative : Bool}
    (hdigits : numeralValue? digits = some q)
    (htokens : tokens name e = signed negative [numeral digits])
    (hpower : negative = true → e.isCompoundPower = true) :
    Understood I name e (I.number (if negative then -q else q)) := by
  cases negative with
  | true =>
    refine understood_of_factor ?_ (hpower rfl)
    rw [htokens]
    exact reads_signed (operates_numeral hdigits).reads (List.forall_mem_nil _) true
  | false =>
    refine understood_of_operates ?_
    rw [htokens]
    exact operates_numeral hdigits

theorem intCast_eq_signed (n : Int) :
    (n : Rat) = if decide (n < 0) then -(n.natAbs : Rat) else (n.natAbs : Rat) := by
  rw [Nat.cast_natAbs]
  split
  · next hneg => rw [abs_of_neg (of_decide_eq_true hneg), Int.cast_neg, neg_neg]
  · next hnonneg => rw [abs_of_nonneg (not_lt.1 fun h => hnonneg (decide_eq_true h))]

theorem understood_integer (n : Int) : Understood I name (integer n) (I.number n) := by
  rw [intCast_eq_signed]
  refine understood_of_numeral (numeralValue?_digits _) (by rw [tokens]) fun hneg => ?_
  rw [isCompoundPower, isNegativeLiteral, hneg, Bool.or_true]

theorem understood_float {bits : UInt64} (hfinite : (Float.ofBits bits).isFinite = true) {q : Rat}
    (hq : Double.shortestRational? (Float.ofBits bits) = some q) :
    Understood I name (float bits) (I.number q) := by
  obtain ⟨r, hdigits, hr⟩ := Double.exists_numeralValue?_numeral hfinite
  obtain rfl := Option.some.inj (hq.symm.trans hr)
  have hsigned : (if Float.ofBits bits < 0.0 then -r else r) =
      if decide (Float.ofBits bits < 0.0) then -r else r := by
    simp only [decide_eq_true_eq]
  rw [hsigned]
  refine understood_of_numeral hdigits (by rw [tokens]) fun hneg => ?_
  rw [isCompoundPower, isNegativeLiteral, hneg, Bool.or_true]

theorem understood_fraction (q : Rat) : Understood I name (fraction q) (I.number q) := by
  have hnegative : decide (q.num < 0) = decide (q < 0) := decide_eq_decide.2 Rat.num_neg
  by_cases hden : q.den = 1
  · have hq : q = if decide (q < 0) then -(q.num.natAbs : Rat) else (q.num.natAbs : Rat) := by
      rw [← hnegative, ← intCast_eq_signed, Rat.coe_int_num_of_den_eq_one hden]
    have htokens : tokens name (fraction q) =
        signed (decide (q < 0)) [numeral (toDigits 10 q.num.natAbs)] := by
      rw [tokens, if_pos hden]
    have hunderstood : Understood I name (fraction q) (I.number _) :=
      understood_of_numeral (numeralValue?_digits q.num.natAbs) htokens fun hneg => by
        rw [isCompoundPower, isNegativeLiteral, hneg, Bool.or_true]
    rwa [← hq] at hunderstood
  · have hq : q = if decide (q < 0) then -((q.num.natAbs : Rat) / q.den)
        else (q.num.natAbs : Rat) / q.den := by
      conv_lhs => rw [← Rat.num_div_den q, intCast_eq_signed q.num, hnegative]
      split
      · rw [neg_div]
      · rfl
    have hquotient : Reads I [I.mul, I.div] (numeral (toDigits 10 q.num.natAbs) ::
        [slash, numeral (toDigits 10 q.den)]) (I.number ((q.num.natAbs : Rat) / q.den)) :=
      Reads.quotient (operates_numeral (numeralValue?_digits _)).reads
        (operates_numeral (numeralValue?_digits _)).reads
        (I.div_number _ (Nat.cast_ne_zero.2 q.den_nz)) (by simp)
    have hreads := reads_signed hquotient passes_neg (decide (q < 0))
    rw [← hq] at hreads
    refine understood_of_term (by rwa [tokens, if_neg hden]) rfl rfl ?_
    by_cases hneg : q < 0
    · exact .inl (by rw [isCompoundPower, isNegativeLiteral, decide_eq_true hneg, Bool.or_true])
    · exact .inr (by simp [isBareFraction, hneg, hden])

/-! ### Sums -/

theorem passes_total (terms : Option V) :
    Passes I.add (Frame.total I ⟨terms, none, [], none⟩) := by
  cases terms with
  | none => exact Passes.some
  | some s => exact fun _ _ _ _ => I.add_assoc

/-- The later terms of a sum are added to those before them. -/
theorem run_terms {rest : List Expression} {ws : List V}
    (h : List.Forall₂ (Understood I name) rest ws) (hhides : ∀ a ∈ rest, a.hidesMinus = false)
    {G : Frame V} {outer : List (Frame V × Bracket V)} {s t : V} (hs : G.closeSum I = some s)
    (ht : ws.foldlM I.add s = some t) :
    ∃ H, run I ⟨G, outer⟩ ((rest.zip (rest.map (tokens name))).flatMap
        fun x => if x.1.startsWithMinus then x.2 else plus :: x.2) = some ⟨H, outer⟩ ∧
      H.closeSum I = some t := by
  induction h generalizing G s with
  | nil =>
    cases ht
    exact ⟨G, rfl, hs⟩
  | @cons a w rest ws ha _ ih =>
    obtain ⟨hminus, hhides⟩ := List.forall_mem_cons.1 hhides
    rw [List.foldlM_cons] at ht
    obtain ⟨u, hu, ht⟩ := Option.bind_eq_some_iff.1 ht
    obtain ⟨G', hrun, hsum⟩ := ha.asSum (some s) outer u hu
    obtain ⟨H, hrest, hclose⟩ := ih hhides hsum ht
    refine ⟨H, ?_, hclose⟩
    have hfirst : run I ⟨G, outer⟩ (if a.startsWithMinus then tokens name a
        else plus :: tokens name a) = some ⟨G', outer⟩ := by
      split
      · next hstarts =>
        -- the minus sign of the term ends the one before
        obtain ⟨ts, hts⟩ := List.head?_eq_some_iff.1
          (head?_tokens_of_startsWithMinus name hstarts hminus)
        rw [hts, run_cons] at hrun ⊢
        rw [step_minus_of_closeSum hs, hrun]
      · rw [run_cons_of_step (step_plus hs), hrun]
    rw [List.map_cons, List.zip_cons_cons, List.flatMap_cons, run_append_of_run hfirst, hrest]

theorem understood_sum {args : List Expression} {vs : List V}
    (h : List.Forall₂ (Understood I name) args vs) (hhides : ∀ a ∈ args.tail, a.hidesMinus = false)
    (hv : accumulate I.add vs = some v) : Understood I name (sum args) v := by
  have hsum : ReadsSum I (tokens name (sum args)) v := by
    intro terms outer s hs
    cases h with
    | nil => cases hv
    | @cons a w rest ws ha hrest =>
      obtain ⟨r, hr, hfold⟩ := (passes_total terms).foldlM hv hs
      obtain ⟨G, hrun, hclose⟩ := ha.asSum terms outer r hr
      obtain ⟨H, hrun', hclose'⟩ := run_terms hrest hhides hclose hfold
      refine ⟨H, ?_, hclose'⟩
      rw [tokens, tokensOf_eq_map, List.map_cons, List.zip_cons_cons, termTokens,
        run_append_of_run hrun, hrun']
  exact ⟨hsum, fun h => absurd rfl (h args), fun h => (by cases h), fun h => (by cases h),
    fun h => by cases h⟩

/-! ### Products -/

/-- Signs of an operand behind an operand are the next factor. -/
theorem run_of_beginsOperand {ts : List Token} {u : Token} (hts : ts.head? = some u)
    (hu : u.beginsOperand = true) {G : Frame V} {outer : List (Frame V × Bracket V)} {t : V}
    (h : G.closeTerm I = some t) : run I ⟨G, outer⟩ ts =
      run I ⟨⟨G.terms, some (t, false), [], none⟩, outer⟩ ts := by
  obtain ⟨us, rfl⟩ := List.head?_eq_some_iff.1 hts
  rw [run_cons, run_cons, step_of_beginsOperand hu h]

/-- A factor that stands behind another one without a sign begins with an operand. -/
theorem head?_tokens_of_juxtaposes (name : Nat → String) {p a : Expression}
    (h : p.juxtaposes a = true) :
    ∃ u, (groupedTokens a.isCompoundFactor (tokens name a)).head? = some u ∧
      u.beginsOperand = true := by
  rcases eq_or_of_juxtaposes h with rfl | ⟨-, hfollows⟩
  · exact ⟨.imaginaryUnit, by rw [tokens]; rfl, rfl⟩
  · obtain ⟨u, hu, hbegins, -⟩ := head?_tokens_of_followsNumber name hfollows
    exact ⟨u, hu, hbegins⟩

/-- The later factors of a product are multiplied with those before them. -/
theorem run_factors {rest : List Expression} {ws : List V}
    (h : List.Forall₂ (Understood I name) rest ws) (previous : Expression) {G : Frame V}
    {outer : List (Frame V × Bracket V)} {p t : V} (hp : G.closeTerm I = some p)
    (ht : ws.foldlM I.mul p = some t) :
    ∃ H, run I ⟨G, outer⟩ (factorTokens (some previous) (rest.zip (rest.map (tokens name)))) =
        some ⟨H, outer⟩ ∧ H.terms = G.terms ∧ H.closeTerm I = some t := by
  induction h generalizing G p previous with
  | nil =>
    cases ht
    exact ⟨G, rfl, rfl, hp⟩
  | @cons a w rest ws ha _ ih =>
    rw [List.foldlM_cons] at ht
    obtain ⟨u, hu, ht⟩ := Option.bind_eq_some_iff.1 ht
    have hpass : ∀ op ∈ [I.mul], Passes op (Frame.context I ⟨G.terms, some (p, false), [], none⟩) := by
      intro op hop
      rw [List.mem_singleton.1 hop]
      exact fun _ _ _ _ => I.mul_assoc
    obtain ⟨G', hrun, hterms, hclose⟩ :=
      ha.groupedFactor ⟨G.terms, some (p, false), [], none⟩ outer u rfl hpass hu
    obtain ⟨H, hrest, hterms', hclose'⟩ := ih a hclose ht
    refine ⟨H, ?_, hterms'.trans hterms, hclose'⟩
    rw [List.map_cons, List.zip_cons_cons, factorTokens, timesTokens, Option.all_some,
      ← List.append_assoc]
    have hfirst : run I ⟨G, outer⟩ ((if previous.juxtaposes a then [] else [times]) ++
        groupedTokens a.isCompoundFactor (tokens name a)) = some ⟨G', outer⟩ := by
      split
      · next hjuxtaposed =>
        obtain ⟨u, hhead, hbegins⟩ := head?_tokens_of_juxtaposes name hjuxtaposed
        rw [List.nil_append, run_of_beginsOperand hhead hbegins hp, hrun]
      · rw [List.singleton_append, run_cons_of_step (step_times hp), hrun]
    rw [run_append_of_run hfirst, hrest]

theorem understood_product {args : List Expression} {vs : List V}
    (h : List.Forall₂ (Understood I name) args vs) (hv : accumulate I.mul vs = some v) :
    Understood I name (product args) v := by
  have hreads : Reads I [I.mul] (tokens name (product args)) v := by
    intro F outer s hF hpass hs
    cases h with
    | nil => cases hv
    | @cons a w rest ws ha hrest =>
      obtain ⟨r, hr, hfold⟩ := (hpass _ List.mem_cons_self).foldlM hv hs
      obtain ⟨G, hrun, hterms, hclose⟩ := ha.groupedFactor F outer r hF hpass hr
      obtain ⟨H, hrun', hterms', hclose'⟩ := run_factors hrest a hclose hfold
      refine ⟨H, ?_, hterms'.trans hterms, hclose'⟩
      rw [tokens, tokensOf_eq_map, List.map_cons, List.zip_cons_cons, factorTokens, timesTokens]
      exact (run_append_of_run hrun _).trans hrun'
  exact ⟨hreads.sum, fun _ => hreads.mono (by simp), fun _ => hreads,
    fun h => (by cases h), fun h => by cases h⟩

/-! ### Other expressions -/

theorem understood_opposite {a : Expression} {w : V} (h : Understood I name a w)
    (hv : I.neg w = some v) : Understood I name (opposite a) v := by
  refine understood_of_term ?_ rfl rfl (.inl rfl)
  rw [tokens]
  exact h.groupedOpposite.opposite hv passes_neg

theorem understood_quotient {n d : Expression} {x y : V} (hn : Understood I name n x)
    (hd : Understood I name d y) (hv : I.div x y = some v) :
    Understood I name (quotient n d) v := by
  refine understood_of_term ?_ rfl rfl (.inl rfl)
  rw [tokens]
  exact hn.groupedNumerator.quotient hd.groupedDenominator hv (by simp)

theorem understood_power {b x : Expression} {y z : V} (hb : Understood I name b y)
    (hx : Understood I name x z) (hbase : b.isBareFraction = false)
    (hexponent : x.isBareFraction = false) (hv : I.power y z = some v) :
    Understood I name (power b x) v := by
  refine understood_of_factor ?_ rfl
  rw [tokens]
  exact (hb.groupedOperand hbase).power (hx.groupedOperand hexponent) hv

theorem forall₂_of_values {R : Expression → V → Prop} {es : List Expression} {vs : List V}
    (h : values I name es = some vs) (hR : ∀ e ∈ es, ∀ v, value I name e = some v → R e v) :
    List.Forall₂ R es vs := by
  induction es generalizing vs with
  | nil =>
    cases h
    exact .nil
  | cons e es ih =>
    obtain ⟨w, ws, hw, hws, rfl⟩ := values_cons_eq_some.1 h
    obtain ⟨he, hes⟩ := List.forall_mem_cons.1 hR
    exact .cons (he w hw) (ih hws hes)

theorem forall₂_readsSum {es : List Expression} {vs : List V}
    (h : List.Forall₂ (Understood I name) es vs) :
    List.Forall₂ (ReadsSum I) (es.map (tokens name)) vs :=
  List.forall₂_map_left_iff.2 (h.imp fun _ _ h => h.asSum)

theorem forall₂_pieces {α β : Type} {R : α → β → Prop} (width fuel : Nat) {xs : List α}
    {ys : List β} (h : List.Forall₂ R xs ys) :
    List.Forall₂ (List.Forall₂ R) (pieces width fuel xs) (pieces width fuel ys) := by
  induction fuel generalizing xs ys with
  | zero => exact .nil
  | succ fuel ih =>
    cases h with
    | nil => exact .nil
    | cons hx hxs =>
      rw [pieces_cons, pieces_cons]
      exact .cons (List.forall₂_take _ (.cons hx hxs)) (ih (List.forall₂_drop _ (.cons hx hxs)))

theorem ne_nil_of_mem_pieces {α : Type} {width fuel : Nat} (hwidth : 0 < width) {xs row : List α}
    (h : row ∈ pieces width fuel xs) : row ≠ [] := by
  induction fuel generalizing xs with
  | zero => cases h
  | succ fuel ih =>
    cases xs with
    | nil => cases h
    | cons x xs =>
      rw [pieces_cons] at h
      rcases List.mem_cons.1 h with rfl | h
      · obtain ⟨k, rfl⟩ := Nat.exists_eq_succ_of_ne_zero hwidth.ne'
        exact List.cons_ne_nil _ _
      · exact ih h

theorem understood_matrix {r c : Nat} {es : List Expression} {vs : List V}
    (h : List.Forall₂ (Understood I name) es vs)
    (hv : I.table (pieces (rowWidth c) vs.length vs) = some v) :
    Understood I name (matrix r c es) v := by
  have hwidth : 0 < rowWidth c := by
    unfold rowWidth
    split <;> omega
  refine understood_of_operates ?_
  rw [tokens, tokensOf_eq_map, h.length_eq]
  exact operates_tableTokens (forall₂_pieces _ _ (forall₂_readsSum h))
    (fun row hrow => ne_nil_of_mem_pieces hwidth hrow) hv

/-- A word that is no sign of a constant is a symbol. -/
theorem word_eq_symbol {id : Nat} (h : Readable name (symbol id)) :
    I.word (name id).toList = I.symbol (name id) := by
  simp only [Readable, any, isMisread, Bool.or_eq_false_iff, beq_eq_false_iff_ne] at h
  have hne : ∀ s : String, name id ≠ s → (name id).toList ≠ s.toList :=
    fun s hs heq => hs (String.toList_injective heq)
  rw [Semantics.word, if_neg (hne _ h.1.2), if_neg (hne _ h.2), String.ofList_toList]

/-- Readable expressions are understood. -/
theorem understood (h : Readable name e) (hv : value I name e = some v) : Understood I name e v := by
  induction e using Expression.induction generalizing v with
  | atom e hatom =>
    cases e with
    | integer n =>
      cases hv
      exact understood_integer n
    | fraction q =>
      cases hv
      exact understood_fraction q
    | float bits =>
      obtain ⟨q, hq, rfl⟩ := Option.map_eq_some_iff.1 hv
      exact understood_float (by simpa [Readable, any, isMisread] using h) hq
    | symbol id =>
      refine understood_of_operates ?_
      rw [tokens]
      refine operates_singleton fun R => ?_
      have hword : I.word (name id).toList = some v := (word_eq_symbol h).trans hv
      rw [step, hword, Option.bind_some]
    | constant c =>
      cases hv
      refine understood_of_operates ?_
      rw [tokens]
      cases c <;> exact operates_singleton fun R => rfl
    | undefined | unreal => cases h
    | _ => cases hatom
  | sum args ih =>
    obtain ⟨hhides, hargs⟩ := readable_sum.1 h
    obtain ⟨vs, hvs, hv⟩ := Option.bind_eq_some_iff.1 hv
    exact understood_sum (forall₂_of_values hvs fun a ha _ hw => ih a ha (hargs a ha) hw) hhides hv
  | product args ih =>
    have hargs := readable_product.1 h
    obtain ⟨vs, hvs, hv⟩ := Option.bind_eq_some_iff.1 hv
    exact understood_product (forall₂_of_values hvs fun a ha _ hw => ih a ha (hargs a ha) hw) hv
  | power base exponent ihb ihx =>
    obtain ⟨hbase, hexponent, hb, hx⟩ := readable_power.1 h
    obtain ⟨y, hy, hv⟩ := Option.bind_eq_some_iff.1 hv
    obtain ⟨z, hz, hv⟩ := Option.bind_eq_some_iff.1 hv
    exact understood_power (ihb hb hy) (ihx hx hz) hbase hexponent hv
  | opposite arg ih =>
    obtain ⟨w, hw, hv⟩ := Option.bind_eq_some_iff.1 hv
    exact understood_opposite (ih (readable_opposite.1 h) hw) hv
  | quotient n d ihn ihd =>
    obtain ⟨hn, hd⟩ := readable_quotient.1 h
    obtain ⟨y, hy, hv⟩ := Option.bind_eq_some_iff.1 hv
    obtain ⟨z, hz, hv⟩ := Option.bind_eq_some_iff.1 hv
    exact understood_quotient (ihn hn hy) (ihd hd hz) hv
  | apply code args ih =>
    obtain ⟨⟨f, hf⟩, hargs⟩ := readable_apply.1 h
    obtain ⟨g, hg, hv⟩ := Option.bind_eq_some_iff.1 hv
    obtain rfl := Option.some.inj (hf.symm.trans hg)
    obtain ⟨vs, hvs, hv⟩ := Option.bind_eq_some_iff.1 hv
    refine understood_of_operates ?_
    rw [tokens, tokensOf_eq_map]
    refine operates_call (forall₂_readsSum (forall₂_of_values hvs fun a ha _ hw =>
      ih a ha (hargs a ha) hw)) ?_
    unfold Semantics.callByName
    rw [functionOf?_functionText hf]
    exact hv
  | call id arg ih =>
    obtain ⟨-, hname, harg⟩ := readable_call.1 h
    obtain ⟨w, hw, hv⟩ := Option.bind_eq_some_iff.1 hv
    refine understood_of_operates ?_
    have hcall : I.callByName (name id).toList [w] = some v := by
      unfold Semantics.callByName
      rw [hname, String.ofList_toList]
      exact hv
    have hoperates := operates_call (.cons (ih harg hw).asSum .nil) hcall
    rw [listTokens, List.intercalate_singleton] at hoperates
    rwa [tokens]
  | matrix rows columns entries ih =>
    have hentries := readable_matrix.1 h
    obtain ⟨vs, hvs, hv⟩ := Option.bind_eq_some_iff.1 hv
    exact understood_matrix (forall₂_of_values hvs fun a ha _ hw => ih a ha (hentries a ha) hw) hv

/-- The text of a readable expression is read as the value of the expression. -/
theorem reading_text (h : Readable name e) (hv : value I name e = some v) :
    reading I (text name e).toList = some v := by
  obtain ⟨G, hrun, hsum⟩ := (understood h hv).asSum.start []
  rw [reading, toList_text h, lex_spell (lexable_tokens h), Option.bind_some, hrun, Option.bind_some,
    finish]
  exact hsum

/-! ### Texts of two expressions -/

/-- A power of a fraction has the text of a quotient, because the fraction has no parentheses. -/
theorem text_power_fraction (name : Nat → String) (base : Expression) {q : Rat} (hq : ¬ q < 0)
    (hden : q.den ≠ 1) : text name (power base (fraction q)) =
      text name (quotient (power base (integer q.num)) (integer q.den)) := by
  have hnum : ¬ q.num < 0 := fun h => hq (Rat.num_neg.1 h)
  have hbare : (fraction q).isCompoundPower = false := by
    simp [isCompoundPower, isAtom, isNegativeLiteral, hq]
  have hwhole : (integer q.num).isCompoundPower = false := by
    simp [isCompoundPower, isAtom, isNegativeLiteral, hnum]
  have htext : Rational.text q = toString q.num ++ "/" ++ toString q.den := by
    rw [Rational.text, if_neg hden]
  simp only [text, hbare, hwhole, htext, grouped, isSumOrQuotient, isCompoundDenominator, isAtom,
    Bool.not_true, Bool.false_eq_true, if_false, String.append_assoc]
  rfl

/-- The sum of a symbol and a product that hides a minus sign has the text of a product with a
function, because there is no plus sign. -/
theorem text_sum_hidesMinus (name : Nat → String) (id : Nat) {q : Rat} (hq : q < 0)
    (rest : List Expression) : text name (sum [symbol id, product (fraction q :: rest)]) =
      text name (product (call id (fraction q) :: rest)) := by
  have hrest : joinFactors (some (fraction q)) (rest.zip (texts name rest)) =
      joinFactors (some (call id (fraction q))) (rest.zip (texts name rest)) := by
    cases rest with
    | nil => rfl
    | cons a rest => cases a <;> rfl
  have harguments : joinArguments [Rational.text q] = "(" ++ Rational.text q ++ ")" := by
    rw [joinArguments, String.append_assoc]
    rfl
  simp only [text, texts, List.zip_cons_cons, List.zip_nil_left, joinTerms, joinFactors, hrest,
    List.foldl_cons, List.foldl_nil, startsWithMinus, isNegativeLiteral, decide_eq_true hq,
    isCompoundFactor, grouped, if_true, harguments, Bool.false_eq_true, if_false,
    String.empty_append, String.append_assoc]

end Expression

/-! ### Stored expressions -/

/-- **Texts are unambiguous**: the text of a readable expression, read as usual, has the value of the
expression, and readable expressions with the same text have the same value wherever both have one. -/
theorem Arena.value_of_text {V : Type} {A B : Arena} {g h : Handle}
    (hg : (A.expression g).Readable A.symbolText) (hh : (B.expression h).Readable B.symbolText)
    (htext : A.text g = B.text h) (I : Semantics V) {v w : V}
    (hv : (A.expression g).value I A.symbolText = some v)
    (hw : (B.expression h).value I B.symbolText = some w) :
    reading I (A.text g).toList = some v ∧ v = w := by
  have hread : reading I (A.text g).toList = some v := Expression.reading_text hg hv
  have hread' : reading I (B.text h).toList = some w := Expression.reading_text hh hw
  exact ⟨hread, Option.some.inj (hread.symm.trans (htext ▸ hread'))⟩

/-- Rational numbers with their whole powers and the powers of one, where all symbols have one
value. -/
def Semantics.rational (symbol : Rat) : Semantics (FieldValue Rat) :=
  Semantics.ofField Rat (fun _ => 0) (fun _ => some symbol) (fun _ _ => none) (fun _ _ => none)
    fun b x => if x.den = 1 then some (b ^ x.num) else if b = 1 then some 1 else none

/-- The sums of `x` and the number `-1`, and of `x` and the opposite of `1`. -/
def differenceArena : Arena := .ofNodes ["x"] [.symbol 0, .integer 1, .integer (-1), .opposite ⟨1⟩,
  .sum [⟨0⟩, ⟨2⟩], .sum [⟨0⟩, ⟨3⟩]] (List.nodup_singleton _)

/-- Both sums are written `x-1`. -/
theorem Arena.value_of_text_difference :
    differenceArena.text ⟨4⟩ = differenceArena.text ⟨5⟩ ∧
      reading (.rational 5) (differenceArena.text ⟨4⟩).toList = some (.scalar 4) := by
  have hexpression : differenceArena.expression ⟨4⟩ = .sum [.symbol 0, .integer (-1)] := rfl
  have hexpression' : differenceArena.expression ⟨5⟩ = .sum [.symbol 0, .opposite (.integer 1)] := rfl
  have htext : differenceArena.text ⟨4⟩ = differenceArena.text ⟨5⟩ := by decide +kernel
  refine ⟨htext, (Arena.value_of_text (V := FieldValue Rat) (v := .scalar 4) (w := .scalar 4) ?_ ?_ htext _ ?_ ?_).1⟩
  · rw [hexpression, Expression.Readable]
    decide +kernel
  · rw [hexpression', Expression.Readable]
    decide +kernel
  · rw [hexpression]
    simp [Expression.value, Expression.values, Expression.accumulate, Semantics.rational,
      Semantics.ofField, FieldValue.lift]
    norm_num
  · rw [hexpression']
    simp [Expression.value, Expression.values, Expression.accumulate, Semantics.rational,
      Semantics.ofField, FieldValue.lift, FieldValue.opposite]
    norm_num

/-- The power of `x` with the exponent `3/2`, and the half of the third power of `x`. -/
def powerArena : Arena := .ofNodes ["x"] [.symbol 0, .fraction (3 / 2), .power ⟨0⟩ ⟨1⟩, .integer 3,
  .power ⟨0⟩ ⟨3⟩, .integer 2, .quotient ⟨4⟩ ⟨5⟩] (List.nodup_singleton _)

/-- Both are written `x^3/2`, but where `x` is one they are `1` and `1/2`. -/
theorem Arena.exists_text_eq_value_ne : ∃ (A : Arena) (g h : Handle) (I : Semantics (FieldValue Rat))
    (v w : FieldValue Rat), A.WellFormed ∧ (∀ id, A.Named id → isName (A.symbolText id) = true) ∧
      A.text g = A.text h ∧ (A.expression g).value I A.symbolText = some v ∧
      (A.expression h).value I A.symbolText = some w ∧ v ≠ w := by
  have hpower : powerArena.expression ⟨2⟩ = .power (.symbol 0) (.fraction (3 / 2)) := rfl
  have hquotient : powerArena.expression ⟨6⟩ =
      .quotient (.power (.symbol 0) (.integer 3)) (.integer 2) := rfl
  refine ⟨powerArena, ⟨2⟩, ⟨6⟩, .rational 1, .scalar 1, .scalar (1 / 2), ?_, ?_, by decide +kernel,
    ?_, ?_, ?_⟩
  · exact .ofNodes (by decide) (by decide) (by decide)
  · intro id hid
    obtain rfl : id = 0 := Nat.lt_one_iff.1 hid.1
    decide
  · rw [hpower]
    simp [Expression.value, Semantics.rational, Semantics.ofField, FieldValue.lift]
  · rw [hquotient]
    simp [Expression.value, Semantics.rational, Semantics.ofField, FieldValue.lift]
  · intro h
    have := FieldValue.scalar.inj h
    norm_num at this

/-- A solution is shown as one expression only where both expressions have one value, unless the
exact one is forbidden. -/
theorem Solution.value_of_identity {V : Type} {A : Arena} {exam : ExamMode} {answer : Answer}
    {r : Rendition} {exact approximate : Handle}
    (hidentity : (ofAnswer A exam answer r exact approximate).identity = true)
    (hexam : exam.forbids (A.expression exact) = false)
    (hexact : (A.expression exact).Readable A.symbolText)
    (happroximate : (A.expression approximate).Readable A.symbolText) (I : Semantics V) {v w : V}
    (hv : (A.expression exact).value I A.symbolText = some v)
    (hw : (A.expression approximate).value I A.symbolText = some w) : v = w := by
  have htext : A.text exact = A.text approximate := by
    simpa [ofAnswer, hexam] using hidentity
  have hread : reading I (A.text exact).toList = some v := Expression.reading_text hexact hv
  rw [htext] at hread
  exact Option.some.inj (hread.symm.trans (Expression.reading_text happroximate hw))

/-! ### Names -/

theorem isLetter_of_isDigit {c : Char} (h : c.isDigit = true) : Text.isLetter c = false := by
  simp only [Char.isDigit, Bool.and_eq_true, decide_eq_true_eq, ge_iff_le,
    UInt32.le_iff_toNat_le] at h
  have hlow : 48 ≤ c.toNat := h.1
  have hhigh : c.toNat ≤ 57 := h.2
  have halpha : c.isAlpha = false := by
    rw [Char.isAlpha, Char.isUpper, Char.isLower]
    simp only [Bool.or_eq_false_iff, Bool.and_eq_false_iff, decide_eq_false_iff_not, ge_iff_le,
      UInt32.le_iff_toNat_le]
    exact ⟨fun hupper => absurd (Nat.le_trans hupper.1 hhigh) (by decide),
      .inl fun hlower => absurd (Nat.le_trans hlower hhigh) (by decide)⟩
  rw [Text.isLetter, halpha, Bool.false_or, decide_eq_false (by omega), Bool.false_and]

/-- No sign but the imaginary unit is made of characters of names. -/
theorem isWordChar_of_isNameChar {c : Char}
    (h : (Text.isLetter c || Text.isNumeral c || c == '_') = true) (hne : c ≠ '𝐢') :
    isWordChar c = true := by
  by_contra hword
  simp only [isWordChar, Bool.not_eq_true', Bool.not_eq_false, List.contains_iff_mem, List.mem_cons,
    List.not_mem_nil, or_false, hne] at hword
  have htimes : Text.inRanges Text.alphabeticRanges 0xD7 = false := by
    rw [Text.inRanges, ← Array.any_toList]
    decide +kernel
  have htimes' : Text.inRanges Text.numeralRanges 0xD7 = false := by
    rw [Text.inRanges, ← Array.any_toList]
    decide +kernel
  rcases hword with rfl | rfl | rfl | rfl | rfl | rfl | rfl | rfl | rfl | rfl
  case inr.inr.inl =>
    change ((_ || (_ && Text.inRanges Text.alphabeticRanges 0xD7)) ||
      (_ || (_ && Text.inRanges Text.numeralRanges 0xD7)) || _) = _ at h
    rw [htimes, htimes'] at h
    revert h
    decide
  all_goals exact absurd h (by decide)

/-- Names are words, but for those that hold an imaginary unit or begin with an exponent mark. -/
theorem isWord_iff_of_isName {name : String} (h : isName name = true) :
    isWord name.toList = true ↔ '𝐢' ∉ name.toList ∧ name.toList.head? ≠ some 'ᴇ' := by
  simp only [isName, Bool.and_eq_true, decide_eq_true_eq, List.all_eq_true] at h
  obtain ⟨⟨-, hhead⟩, hall⟩ := h
  generalize name.toList = cs at *
  cases cs with
  | nil => cases hhead
  | cons c cs =>
    have hletter : (Text.isLetter c || c == '_') = true := hhead
    have hdigit : c.isDigit = false := by
      by_contra hdigit
      rw [isLetter_of_isDigit (Bool.not_eq_false _ ▸ hdigit), Bool.false_or, beq_iff_eq] at hletter
      subst hletter
      exact hdigit rfl
    have hdot : c ≠ '.' := by
      rintro rfl
      exact absurd hletter (by decide)
    simp only [isWord, hdigit, Bool.not_false, Bool.true_and, Bool.and_eq_true, bne_iff_ne,
      List.all_eq_true, List.head?_cons, ne_eq, Option.some.injEq, hdot, not_false_eq_true, true_and]
    constructor
    · rintro ⟨hmark, hword⟩
      exact ⟨fun hmem => absurd (hword _ hmem) (by decide), hmark⟩
    · rintro ⟨hunit, hmark⟩
      exact ⟨hmark, fun d hd => isWordChar_of_isNameChar (hall d hd) fun h => hunit (h ▸ hd)⟩

end Resolvent

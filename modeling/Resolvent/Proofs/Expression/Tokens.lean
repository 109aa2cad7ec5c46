import Resolvent.Proofs.Expression.Semantics
import Resolvent.Proofs.Expression.Operands
import Resolvent.Proofs.Numeric.Numerals

/-!
# Expressions as sequences of signs

`Expression.tokens` are the signs that the text of an expression is made of (`toList_text`), and no
two of them are taken for one (`lexable_tokens`), if the expression is `Readable`: it has no number
with a fraction bar as base or exponent, no sum with a later term that hides a minus sign in
parentheses, and no name that is taken for something else.
-/

namespace Resolvent

open Token
open Nat (toDigits)

/-- The sign of a constant. -/
def Constant.token : Constant → Token
  | .imaginaryUnit => .imaginaryUnit
  | c => .word c.text.toList

/-- The built-in function that is written so. -/
def functionOf? (name : List Char) : Option Builtin :=
  Builtin.all.find? fun f => (Expression.functionText f.code).toList == name

theorem functionOf?_functionText {code : Nat} {f : Builtin} (h : Builtin.ofCode? code = some f) :
    functionOf? (Expression.functionText code).toList = some f := by
  have hall : ∀ i : Fin Builtin.all.length,
      functionOf? (Expression.functionText i.1).toList = some (Builtin.all.get i) := by
    decide +kernel
  obtain ⟨hlt, rfl⟩ := List.getElem?_eq_some_iff.1 h
  exact hall ⟨code, hlt⟩

theorem isWord_functionText {code : Nat} {f : Builtin} (h : Builtin.ofCode? code = some f) :
    isWord (Expression.functionText code).toList = true := by
  have hall : ∀ i : Fin Builtin.all.length,
      isWord (Expression.functionText i.1).toList = true := by
    decide +kernel
  obtain ⟨hlt, rfl⟩ := List.getElem?_eq_some_iff.1 h
  exact hall ⟨code, hlt⟩

namespace Expression

/-! ### Signs -/

/-- Signs behind a minus sign, if there is one. -/
def signed (negative : Bool) (ts : List Token) : List Token := if negative then minus :: ts else ts

/-- Signs in parentheses, if they need them. -/
def groupedTokens (compound : Bool) (ts : List Token) : List Token :=
  if compound then openGroup :: (ts ++ [close]) else ts

/-- The signs of a sum. -/
def termTokens : List (Expression × List Token) → List Token
  | [] => []
  | (_, first) :: rest =>
    first ++ rest.flatMap fun x => if x.1.startsWithMinus then x.2 else plus :: x.2

/-- The sign between two factors, if one stands there. -/
def timesTokens (previous : Option Expression) (e : Expression) : List Token :=
  if previous.all fun p => p.juxtaposes e then [] else [times]

/-- The signs of a product. -/
def factorTokens (previous : Option Expression) : List (Expression × List Token) → List Token
  | [] => []
  | (e, ts) :: rest =>
    timesTokens previous e ++ (groupedTokens e.isCompoundFactor ts ++ factorTokens (some e) rest)

/-- Signs separated by commas. -/
def listTokens (entries : List (List Token)) : List Token := [comma].intercalate entries

/-- The signs of a matrix, by its rows. -/
def tableTokens (rows : List (List (List Token))) : List Token :=
  if rows.isEmpty then [emptyTable]
  else openTable :: ([nextRow].intercalate (rows.map listTokens) ++ [closeTable])

mutual

/-- The signs of an expression, given the names of the symbols. -/
def tokens (name : Nat → String) : Expression → List Token
  | integer n => signed (n < 0) [numeral (toDigits 10 n.natAbs)]
  | fraction q => signed (q < 0) (numeral (toDigits 10 q.num.natAbs) ::
      if q.den = 1 then [] else [slash, numeral (toDigits 10 q.den)])
  | float bits => signed (Float.ofBits bits < 0.0) [numeral (Double.numeral (Float.ofBits bits))]
  | symbol id => [word (name id).toList]
  | constant c => [c.token]
  | undefined => [word "undef".toList]
  | unreal => [word "nonreal".toList]
  | sum args => termTokens (args.zip (tokensOf name args))
  | product args => factorTokens none (args.zip (tokensOf name args))
  | power base exponent =>
    groupedTokens base.isCompoundPower (tokens name base) ++
      caret :: groupedTokens exponent.isCompoundPower (tokens name exponent)
  | opposite arg => minus :: groupedTokens arg.isCompoundOpposite (tokens name arg)
  | quotient numerator denominator =>
    groupedTokens numerator.isSumOrQuotient (tokens name numerator) ++
      slash :: groupedTokens denominator.isCompoundDenominator (tokens name denominator)
  | apply code args =>
    Token.call (functionText code).toList :: (listTokens (tokensOf name args) ++ [close])
  | call id arg => Token.call (name id).toList :: (tokens name arg ++ [close])
  | matrix _ columns entries =>
    tableTokens (pieces (rowWidth columns) entries.length (tokensOf name entries))

/-- The signs of a list of expressions. -/
def tokensOf (name : Nat → String) : List Expression → List (List Token)
  | [] => []
  | e :: es => tokens name e :: tokensOf name es

end

attribute [grind =] tokens tokensOf

theorem tokensOf_eq_map (name : Nat → String) (es : List Expression) :
    tokensOf name es = es.map (tokens name) := by
  induction es with
  | nil => rfl
  | cons e es ih => rw [tokensOf, ih, List.map_cons]

/-! ### Readable expressions -/

/-- A number that is written with a fraction bar and without parentheses as base or exponent. -/
def isBareFraction : Expression → Bool
  | fraction q => !(q < 0) && q.den != 1
  | _ => false

/-- The expression counts as beginning with a minus sign, but begins with a parenthesis. -/
def hidesMinus : Expression → Bool
  | product (fraction q :: _) => q < 0
  | _ => false

/-- The expression itself, not one within it, has a text that is taken for another. -/
def isMisread (name : Nat → String) : Expression → Bool
  | undefined | unreal => true
  | float bits => !(Float.ofBits bits).isFinite
  | symbol id => !isWord (name id).toList || name id == Constant.pi.text || name id == Constant.e.text
  | call id _ => !isWord (name id).toList || (functionOf? (name id).toList).isSome
  | apply code _ => (Builtin.ofCode? code).isNone
  | sum args => args.tail.any hidesMinus
  | power base exponent => base.isBareFraction || exponent.isBareFraction
  | _ => false

/-- No expression within is misread. -/
def Readable (name : Nat → String) (e : Expression) : Prop := e.any (isMisread name) = false

/-- A property is found nowhere within an expression where neither the expression has it nor
anything within its operands. -/
theorem any_eq_false_iff {p : Expression → Bool} {e : Expression} :
    e.any p = false ↔ p e = false ∧ ∀ a ∈ e.operands, a.any p = false := by
  rw [← Bool.not_eq_true, any_eq_true_iff, not_or]
  simp only [Bool.not_eq_true, not_exists, not_and]

variable {name : Nat → String}

theorem readable_iff {e : Expression} :
    Readable name e ↔ e.isMisread name = false ∧ ∀ a ∈ e.operands, Readable name a :=
  any_eq_false_iff

theorem readable_sum {args : List Expression} : Readable name (sum args) ↔
    (∀ a ∈ args.tail, a.hidesMinus = false) ∧ ∀ a ∈ args, Readable name a := by
  refine readable_iff.trans (and_congr_left' ?_)
  change args.tail.any hidesMinus = false ↔ _
  simp only [List.any_eq_false, Bool.not_eq_true]

theorem readable_product {args : List Expression} :
    Readable name (product args) ↔ ∀ a ∈ args, Readable name a :=
  readable_iff.trans (and_iff_right rfl)

theorem readable_power {base exponent : Expression} : Readable name (power base exponent) ↔
    base.isBareFraction = false ∧ exponent.isBareFraction = false ∧ Readable name base ∧
      Readable name exponent := by
  refine readable_iff.trans ?_
  change (_ || _) = false ∧ (∀ a ∈ [base, exponent], _) ↔ _
  rw [Bool.or_eq_false_iff, List.forall_mem_cons, List.forall_mem_singleton, and_assoc]

theorem readable_opposite {arg : Expression} :
    Readable name (opposite arg) ↔ Readable name arg :=
  readable_iff.trans ((and_iff_right rfl).trans List.forall_mem_singleton)

theorem readable_quotient {n d : Expression} :
    Readable name (quotient n d) ↔ Readable name n ∧ Readable name d :=
  readable_iff.trans ((and_iff_right rfl).trans
    (List.forall_mem_cons.trans (and_congr_right' List.forall_mem_singleton)))

theorem readable_apply {code : Nat} {args : List Expression} : Readable name (apply code args) ↔
    (∃ f, Builtin.ofCode? code = some f) ∧ ∀ a ∈ args, Readable name a := by
  refine readable_iff.trans (and_congr_left' ?_)
  change (Builtin.ofCode? code).isNone = false ↔ _
  rw [Option.isNone_eq_false_iff, Option.isSome_iff_exists]

theorem readable_call {id : Nat} {arg : Expression} : Readable name (call id arg) ↔
    isWord (name id).toList = true ∧ functionOf? (name id).toList = none ∧ Readable name arg := by
  refine readable_iff.trans ?_
  change (!_ || _) = false ∧ (∀ a ∈ [arg], _) ↔ _
  rw [Bool.or_eq_false_iff, Bool.not_eq_false', Option.isSome_eq_false_iff,
    Option.isNone_iff_eq_none, List.forall_mem_singleton, and_assoc]

theorem readable_matrix {r c : Nat} {entries : List Expression} :
    Readable name (matrix r c entries) ↔ ∀ a ∈ entries, Readable name a :=
  readable_iff.trans (and_iff_right rfl)

/-! ### Texts -/

theorem toList_grouped {compound : Bool} {text : String} {ts : List Token}
    (h : text.toList = spell ts) :
    (grouped compound text).toList = spell (groupedTokens compound ts) := by
  unfold grouped groupedTokens
  split
  · simp [h, chars]
  · exact h

theorem toList_joinTerms {args : List Expression}
    (h : ∀ a ∈ args, (text name a).toList = spell (tokens name a)) :
    (joinTerms (args.zip (args.map (text name)))).toList =
      spell (termTokens (args.zip (args.map (tokens name)))) := by
  have hrest : ∀ (rest : List Expression) (out : String),
      (∀ a ∈ rest, (text name a).toList = spell (tokens name a)) →
      ((rest.zip (rest.map (text name))).foldl
        (fun out x => out ++ if x.1.startsWithMinus then x.2 else "+" ++ x.2) out).toList =
      out.toList ++ spell ((rest.zip (rest.map (tokens name))).flatMap
        fun x => if x.1.startsWithMinus then x.2 else plus :: x.2) := by
    intro rest
    induction rest with
    | nil => simp
    | cons a rest ih =>
      intro out hrest
      obtain ⟨ha, hrest⟩ := List.forall_mem_cons.1 hrest
      rw [List.map_cons, List.zip_cons_cons, List.foldl_cons, ih _ hrest, List.map_cons,
        List.zip_cons_cons, List.flatMap_cons, spell_append, String.toList_append,
        List.append_assoc]
      congr 2
      split
      · exact ha
      · rw [String.toList_append, ha]
        rfl
  cases args with
  | nil => rfl
  | cons first rest =>
    obtain ⟨hfirst, htail⟩ := List.forall_mem_cons.1 h
    rw [List.map_cons, List.zip_cons_cons, List.map_cons, List.zip_cons_cons, termTokens,
      spell_append, ← hfirst]
    exact (String.toList_append).trans (congrArg _ (hrest rest "" htail))

theorem toList_joinFactors {args : List Expression}
    (h : ∀ a ∈ args, (text name a).toList = spell (tokens name a)) (previous : Option Expression) :
    (joinFactors previous (args.zip (args.map (text name)))).toList =
      spell (factorTokens previous (args.zip (args.map (tokens name)))) := by
  induction args generalizing previous with
  | nil => rfl
  | cons a rest ih =>
    obtain ⟨ha, hrest⟩ := List.forall_mem_cons.1 h
    rw [List.map_cons, List.zip_cons_cons, List.map_cons, List.zip_cons_cons, factorTokens,
      spell_append, spell_append, ← toList_grouped ha, ← ih hrest, ← List.append_assoc]
    cases previous with
    | none =>
      change ("" ++ grouped a.isCompoundFactor (text name a) ++ joinFactors (some a) _).toList = _
      simp only [String.toList_append]
      rfl
    | some p =>
      change ((if p.juxtaposes a then "" else "×") ++ grouped a.isCompoundFactor (text name a) ++
        joinFactors (some a) _).toList = _
      simp only [String.toList_append]
      congr 2
      rw [timesTokens, Option.all_some]
      split <;> rfl

theorem spell_intercalate (t : Token) (tss : List (List Token)) :
    spell ([t].intercalate tss) = t.chars.intercalate (tss.map spell) := by
  induction tss with
  | nil => rfl
  | cons ts tss ih =>
    cases tss with
    | nil => rw [List.intercalate_singleton, List.map_singleton, List.intercalate_singleton]
    | cons us tss =>
      rw [List.intercalate_cons_cons, spell_append, spell_append, ih, spell_cons, spell_nil,
        List.append_nil, List.map_cons, List.map_cons, List.map_cons, List.intercalate_cons_cons]

theorem toList_intercalate {es : List Expression}
    (h : ∀ e ∈ es, (text name e).toList = spell (tokens name e)) :
    (String.intercalate "," (es.map (text name))).toList = spell (listTokens (es.map (tokens name))) := by
  rw [String.toList_intercalate, listTokens, spell_intercalate, List.map_map, List.map_map]
  exact congrArg _ (List.map_congr_left h)

theorem pieces_cons {α : Type} (width fuel : Nat) (x : α) (xs : List α) :
    pieces width (fuel + 1) (x :: xs) =
      (x :: xs).take width :: pieces width fuel ((x :: xs).drop width) := rfl

theorem pieces_map {α β : Type} (f : α → β) (width fuel : Nat) (xs : List α) :
    pieces width fuel (xs.map f) = (pieces width fuel xs).map (List.map f) := by
  induction fuel generalizing xs with
  | zero => rfl
  | succ fuel ih =>
    cases xs with
    | nil => rfl
    | cons x xs =>
      rw [List.map_cons, pieces_cons, pieces_cons, ← List.map_cons, ← List.map_take,
        ← List.map_drop, ih, List.map_cons]

theorem mem_of_mem_pieces {α : Type} {width fuel : Nat} {xs row : List α} {x : α}
    (h : row ∈ pieces width fuel xs) (hx : x ∈ row) : x ∈ xs := by
  induction fuel generalizing xs with
  | zero => cases h
  | succ fuel ih =>
    cases xs with
    | nil => cases h
    | cons y ys =>
      rcases List.mem_cons.1 h with rfl | h
      · exact List.mem_of_mem_take hx
      · exact List.mem_of_mem_drop (ih h)

/-- The rows in brackets, as the signs of a matrix have them. -/
theorem flatMap_brackets {rows : List (List Char)} (h : rows ≠ []) :
    '[' :: (rows.flatMap (fun row => '[' :: (row ++ [']'])) ++ [']']) =
      ['[', '['] ++ ([']', '['].intercalate rows ++ [']', ']']) := by
  induction rows with
  | nil => exact absurd rfl h
  | cons row rows ih =>
    cases rows with
    | nil => simp
    | cons next rows =>
      have ih := List.cons.inj (ih (List.cons_ne_nil _ _))
      rw [List.flatMap_cons, List.append_assoc, ih.2, List.intercalate_cons_cons]
      simp

theorem toList_joinRows {columns : Nat} {es : List Expression}
    (h : ∀ e ∈ es, (text name e).toList = spell (tokens name e)) :
    (joinRows columns (es.map (text name))).toList =
      spell (tableTokens (pieces (rowWidth columns) es.length (es.map (tokens name)))) := by
  have hjoin : (joinRows columns (es.map (text name))).toList =
      '[' :: (((pieces (rowWidth columns) es.length es).map
        fun row => (String.intercalate "," (row.map (text name))).toList).flatMap
          (fun row => '[' :: (row ++ [']'])) ++ [']']) := by
    have hdef : joinRows columns (es.map (text name)) = "[" ++ String.join
        ((pieces (rowWidth columns) (es.map (text name)).length (es.map (text name))).map
          fun row => "[" ++ String.intercalate "," row ++ "]") ++ "]" := rfl
    rw [hdef, List.length_map, pieces_map, List.map_map]
    simp only [String.toList_append, String.toList_join, List.flatMap_map, Function.comp_def]
    simp
  have hrows : ((pieces (rowWidth columns) es.length es).map
      fun row => (String.intercalate "," (row.map (text name))).toList) =
      (pieces (rowWidth columns) es.length (es.map (tokens name))).map fun row =>
        spell (listTokens row) := by
    rw [pieces_map, List.map_map]
    exact List.map_congr_left fun row hrow =>
      toList_intercalate fun e he => h e (mem_of_mem_pieces hrow he)
  rw [hjoin, hrows, tableTokens]
  generalize pieces (rowWidth columns) es.length (es.map (tokens name)) = rows
  cases rows with
  | nil => rfl
  | cons row rows =>
    rw [flatMap_brackets (by simp), List.isEmpty_cons, if_neg Bool.false_ne_true, spell_cons,
      spell_append, spell_intercalate, List.map_map]
    rfl

/-- The text of an expression is made of its signs. -/
theorem toList_text {e : Expression} (h : Readable name e) :
    (text name e).toList = spell (tokens name e) := by
  have hsigned (negative : Bool) (ts : List Token) :
      spell (signed negative ts) = (if negative then ['-'] else []) ++ spell ts := by
    cases negative <;> rfl
  induction e using Expression.induction with
  | atom e hatom =>
    cases e with
    | integer n =>
      rw [text, tokens, toList_toString, hsigned]
      simp [chars]
    | fraction q =>
      have hden : (toString q.den).toList = toDigits 10 q.den := Nat.toList_repr
      rw [text, tokens, Rational.text, hsigned, apply_ite String.toList, String.toList_append,
        String.toList_append, toList_toString, hden]
      simp only [Rat.num_neg, decide_eq_true_iff]
      split <;> simp [chars]
    | float bits =>
      have hfinite : (Float.ofBits bits).isFinite = true := by
        simpa [Readable, any, isMisread] using h
      rw [text, tokens, Double.toList_calculatorText hfinite, hsigned]
      simp [chars]
    | symbol id => exact (List.append_nil _).symm
    | constant c =>
      rw [text, tokens]
      cases c <;> rfl
    | undefined | unreal => cases h
    | _ => cases hatom
  | sum args ih =>
    rw [text, tokens, texts_eq_map, tokensOf_eq_map]
    exact toList_joinTerms fun a ha => ih a ha ((readable_sum.1 h).2 a ha)
  | product args ih =>
    rw [text, tokens, texts_eq_map, tokensOf_eq_map]
    exact toList_joinFactors (fun a ha => ih a ha (readable_product.1 h a ha)) none
  | power base exponent ihb ihx =>
    obtain ⟨-, -, hb, hx⟩ := readable_power.1 h
    rw [text, tokens, String.toList_append, String.toList_append, toList_grouped (ihb hb),
      toList_grouped (ihx hx), spell_append, spell_cons, List.append_assoc]
    rfl
  | opposite arg ih =>
    rw [text, tokens, String.toList_append, toList_grouped (ih (readable_opposite.1 h)), spell_cons]
    rfl
  | quotient n d ihn ihd =>
    obtain ⟨hn, hd⟩ := readable_quotient.1 h
    rw [text, tokens, String.toList_append, String.toList_append, toList_grouped (ihn hn),
      toList_grouped (ihd hd), spell_append, spell_cons, List.append_assoc]
    rfl
  | apply code args ih =>
    obtain ⟨-, hargs⟩ := readable_apply.1 h
    rw [text, tokens, texts_eq_map, tokensOf_eq_map, joinArguments, String.toList_append,
      String.toList_append, String.toList_append, toList_intercalate fun a ha => ih a ha (hargs a ha)]
    simp [chars]
  | call id arg ih =>
    obtain ⟨-, -, harg⟩ := readable_call.1 h
    rw [text, tokens, joinArguments, String.toList_append, String.toList_append,
      String.toList_append, String.intercalate_singleton, ih harg]
    simp [chars]
  | matrix rows columns entries ih =>
    rw [text, tokens, texts_eq_map, tokensOf_eq_map]
    exact toList_joinRows fun a ha => ih a ha (readable_matrix.1 h a ha)

/-! ### Signs that stand side by side -/

theorem lexable_signed {negative : Bool} {ts : List Token} (h : Lexable ts) :
    Lexable (signed negative ts) := by
  cases negative with
  | true => exact h.cons trivial rfl
  | false => exact h

theorem lexable_enclosed {t : Token} {ts : List Token} (ht : t.IsProper) (hends : t.ends = false)
    (h : Lexable ts) {u : Token} (hu : u.IsProper) (hbegins : u.begins = false) :
    Lexable (t :: (ts ++ [u])) :=
  (h.append_of_not_begins (.singleton hu) fun v hv => by cases hv; exact hbegins).cons ht hends

theorem lexable_grouped {compound : Bool} {ts : List Token} (h : Lexable ts) :
    Lexable (groupedTokens compound ts) := by
  cases compound with
  | true => exact lexable_enclosed (t := openGroup) trivial rfl h (u := close) trivial rfl
  | false => exact h

/-- A literal that is less than zero begins with a minus sign. -/
theorem head?_tokens_of_isNegativeLiteral {e : Expression} (h : e.isNegativeLiteral = true) :
    (tokens name e).head? = some minus := by
  have hsigned {negative : Bool} (hneg : negative = true) (ts : List Token) :
      (signed negative ts).head? = some minus := by
    rw [hneg]
    rfl
  cases e with
  | integer n =>
    rw [tokens]
    exact hsigned h _
  | fraction q =>
    rw [tokens]
    exact hsigned h _
  | float bits =>
    rw [tokens]
    exact hsigned h _
  | _ => cases h

/-- A later term of a sum that is written without a plus sign begins with a minus sign. -/
theorem head?_tokens_of_startsWithMinus (name : Nat → String) {e : Expression}
    (h : e.startsWithMinus = true) (hhides : e.hidesMinus = false) : (tokens name e).head? = some minus := by
  cases e with
  | opposite arg => rw [tokens, List.head?_cons]
  | product args =>
    cases args with
    | nil => cases h
    | cons first rest =>
      have hfirst : first.isNegativeLiteral = true := h
      have hcompound : first.isCompoundFactor = false := by
        cases first with
        | fraction q =>
          have hpos : (fraction q).isNegativeLiteral = false := hhides
          exact absurd (hpos.symm.trans hfirst) Bool.false_ne_true
        | integer _ | float _ => rfl
        | _ => cases hfirst
      have hhead : (tokens name first).head? = some minus :=
        head?_tokens_of_isNegativeLiteral hfirst
      rw [tokens, tokensOf, List.zip_cons_cons, factorTokens, hcompound]
      change (tokens name first ++ _).head? = some minus
      rw [List.head?_append, hhead]
      rfl
  | _ => exact head?_tokens_of_isNegativeLiteral h

theorem lexable_termTokens {args : List Expression} (h : ∀ a ∈ args, Lexable (tokens name a))
    (hhides : ∀ a ∈ args.tail, a.hidesMinus = false) :
    Lexable (termTokens (args.zip (args.map (tokens name)))) := by
  have hrest : ∀ rest : List Expression, (∀ a ∈ rest, Lexable (tokens name a)) →
      (∀ a ∈ rest, a.hidesMinus = false) →
      Lexable ((rest.zip (rest.map (tokens name))).flatMap
        fun x => if x.1.startsWithMinus then x.2 else plus :: x.2) ∧
      ∀ u ∈ ((rest.zip (rest.map (tokens name))).flatMap
        fun x => if x.1.startsWithMinus then x.2 else plus :: x.2).head?, u.begins = false := by
    intro rest
    induction rest with
    | nil => exact fun _ _ => ⟨.nil, fun u hu => by cases hu⟩
    | cons a rest ih =>
      intro h hhides
      obtain ⟨ha, hrest⟩ := List.forall_mem_cons.1 h
      obtain ⟨hminus, hhides⟩ := List.forall_mem_cons.1 hhides
      obtain ⟨hlex, hhead⟩ := ih hrest hhides
      rw [List.map_cons, List.zip_cons_cons, List.flatMap_cons]
      dsimp only
      split
      · next hstarts =>
        refine ⟨ha.append_of_not_begins hlex hhead, fun u hu => ?_⟩
        rw [List.head?_append, head?_tokens_of_startsWithMinus name hstarts hminus] at hu
        cases hu
        rfl
      · refine ⟨(ha.append_of_not_begins hlex hhead).cons (t := plus) trivial rfl, fun u hu => ?_⟩
        cases hu
        rfl
  cases args with
  | nil => exact .nil
  | cons first rest =>
    obtain ⟨hfirst, htail⟩ := List.forall_mem_cons.1 h
    obtain ⟨hlex, hhead⟩ := hrest rest htail hhides
    exact hfirst.append_of_not_begins hlex hhead

theorem eq_or_of_juxtaposes {p e : Expression} (h : p.juxtaposes e = true) :
    e = constant .imaginaryUnit ∨ p.isPlainNumeral = true ∧ e.followsNumber = true := by
  cases e with
  | constant c =>
    cases c with
    | imaginaryUnit => exact .inl rfl
    | pi | e => exact .inr (Bool.and_eq_true_iff.1 h)
  | _ => exact .inr (Bool.and_eq_true_iff.1 h)

/-- What may stand behind a number without a sign begins with an operand other than a number. -/
theorem head?_tokens_of_followsNumber (name : Nat → String) {e : Expression}
    (h : e.followsNumber = true) :
    ∃ u, (groupedTokens e.isCompoundFactor (tokens name e)).head? = some u ∧
      u.beginsOperand = true ∧ ∀ digits, u ≠ numeral digits := by
  have hconstant (c : Constant) :
      c.token.beginsOperand = true ∧ ∀ digits, c.token ≠ numeral digits := by
    cases c <;> exact ⟨rfl, fun digits => Token.noConfusion⟩
  cases e with
  | constant c => exact ⟨c.token, by rw [tokens]; rfl, hconstant c⟩
  | symbol id => exact ⟨_, by rw [tokens]; rfl, rfl, fun digits => Token.noConfusion⟩
  | apply code args => exact ⟨_, by rw [tokens]; rfl, rfl, fun digits => Token.noConfusion⟩
  | power base exponent =>
    change ∃ u, (tokens name (power base exponent)).head? = some u ∧ _
    rw [tokens]
    cases hcompound : base.isCompoundPower with
    | true => exact ⟨openGroup, rfl, rfl, fun digits => Token.noConfusion⟩
    | false =>
      cases base with
      | symbol id => exact ⟨_, by rw [tokens]; rfl, rfl, fun digits => Token.noConfusion⟩
      | constant c => exact ⟨c.token, by rw [tokens]; rfl, hconstant c⟩
      | undefined | unreal =>
        exact ⟨_, by rw [tokens]; rfl, rfl, fun digits => Token.noConfusion⟩
      | integer _ | fraction _ | float _ => cases h
      | _ => cases hcompound
  | _ => cases h

/-- A number that is written without parentheses, and what may stand behind it. -/
theorem lexable_append_factorTokens {e : Expression} {ts : List Token}
    (he : Lexable (tokens name e)) (hts : Lexable ts)
    (h : ∀ u ∈ ts.head?, u.begins = false ∨
      e.isPlainNumeral = true ∧ ∀ digits, u ≠ numeral digits) :
    Lexable (groupedTokens e.isCompoundFactor (tokens name e) ++ ts) := by
  refine (lexable_grouped he).append hts fun t ht u hu => ?_
  rcases h u hu with hbegins | ⟨hnumeral, hu⟩
  · exact follows_of_not_begins hbegins
  · obtain ⟨digits, hdigits⟩ : ∃ digits,
        groupedTokens e.isCompoundFactor (tokens name e) = [numeral digits] := by
      cases e with
      | integer n =>
        have hn : decide (n < 0) = false := by simpa [isPlainNumeral] using hnumeral
        exact ⟨_, by rw [tokens, hn]; rfl⟩
      | float bits =>
        have hneg : decide (Float.ofBits bits < 0.0) = false := by
          simpa [isPlainNumeral] using hnumeral
        exact ⟨_, by rw [tokens, hneg]; rfl⟩
      | _ => cases hnumeral
    rw [hdigits] at ht
    cases ht
    cases u with
    | numeral digits => exact absurd rfl (hu digits)
    | _ => trivial

theorem lexable_factorTokens {args : List Expression} (h : ∀ a ∈ args, Lexable (tokens name a)) :
    Lexable (factorTokens none (args.zip (args.map (tokens name)))) := by
  have hrest : ∀ (rest : List Expression) (p : Expression), (∀ a ∈ rest, Lexable (tokens name a)) →
      Lexable (factorTokens (some p) (rest.zip (rest.map (tokens name)))) ∧
      ∀ u ∈ (factorTokens (some p) (rest.zip (rest.map (tokens name)))).head?, u.begins = false ∨
        p.isPlainNumeral = true ∧ ∀ digits, u ≠ numeral digits := by
    intro rest
    induction rest with
    | nil => exact fun _ _ => ⟨.nil, fun u hu => by cases hu⟩
    | cons a rest ih =>
      intro p h
      obtain ⟨ha, hrest⟩ := List.forall_mem_cons.1 h
      have hlex := lexable_append_factorTokens ha (ih a hrest).1 (ih a hrest).2
      rw [List.map_cons, List.zip_cons_cons, factorTokens, timesTokens, Option.all_some]
      cases hjuxtaposed : p.juxtaposes a with
      | false => exact ⟨hlex.cons (t := times) trivial rfl, fun u hu => by cases hu; exact .inl rfl⟩
      | true =>
        refine ⟨hlex, fun u hu => ?_⟩
        rw [if_pos rfl, List.nil_append, List.head?_append] at hu
        rcases eq_or_of_juxtaposes hjuxtaposed with rfl | ⟨hp, ha⟩
        · rw [tokens] at hu
          cases hu
          exact .inl rfl
        · obtain ⟨v, hv, -, hnumeral⟩ := head?_tokens_of_followsNumber name ha
          rw [hv] at hu
          cases hu
          exact .inr ⟨hp, hnumeral⟩
  cases args with
  | nil => exact .nil
  | cons first rest =>
    obtain ⟨hfirst, htail⟩ := List.forall_mem_cons.1 h
    exact lexable_append_factorTokens hfirst (hrest rest first htail).1 (hrest rest first htail).2

/-- No two signs of an expression are taken for one. -/
theorem lexable_tokens {e : Expression} (h : Readable name e) : Lexable (tokens name e) := by
  have hdigits (n : Nat) : Lexable [numeral (toDigits 10 n)] :=
    .singleton (isMantissa_digits n).isNumeral
  induction e using Expression.induction with
  | atom e hatom =>
    cases e with
    | integer n =>
      rw [tokens]
      exact lexable_signed (hdigits _)
    | fraction q =>
      rw [tokens]
      refine lexable_signed ?_
      split
      · exact hdigits _
      · exact (hdigits _).append_of_not_begins ((hdigits _).cons (t := slash) trivial rfl)
          fun u hu => by cases hu; rfl
    | float bits =>
      rw [tokens]
      exact lexable_signed (.singleton (Double.isNumeral_numeral _))
    | symbol id =>
      have hword : isWord (name id).toList = true := by
        simp only [Readable, any, isMisread, Bool.or_eq_false_iff, Bool.not_eq_false'] at h
        exact h.1.1
      rw [tokens]
      exact .singleton hword
    | constant c =>
      rw [tokens]
      cases c with
      | imaginaryUnit => exact .singleton trivial
      | pi | e => exact .singleton (show isWord _ = true by decide)
    | undefined | unreal => cases h
    | _ => cases hatom
  | sum args ih =>
    obtain ⟨hhides, hargs⟩ := readable_sum.1 h
    rw [tokens, tokensOf_eq_map]
    exact lexable_termTokens (fun a ha => ih a ha (hargs a ha)) hhides
  | product args ih =>
    rw [tokens, tokensOf_eq_map]
    exact lexable_factorTokens fun a ha => ih a ha (readable_product.1 h a ha)
  | power base exponent ihb ihx =>
    obtain ⟨-, -, hb, hx⟩ := readable_power.1 h
    rw [tokens]
    exact (lexable_grouped (ihb hb)).append_of_not_begins
      ((lexable_grouped (ihx hx)).cons (t := caret) trivial rfl) fun u hu => by cases hu; rfl
  | opposite arg ih =>
    rw [tokens]
    exact (lexable_grouped (ih (readable_opposite.1 h))).cons (t := minus) trivial rfl
  | quotient n d ihn ihd =>
    obtain ⟨hn, hd⟩ := readable_quotient.1 h
    rw [tokens]
    exact (lexable_grouped (ihn hn)).append_of_not_begins
      ((lexable_grouped (ihd hd)).cons (t := slash) trivial rfl) fun u hu => by cases hu; rfl
  | apply code args ih =>
    obtain ⟨⟨f, hf⟩, hargs⟩ := readable_apply.1 h
    rw [tokens, tokensOf_eq_map]
    refine lexable_enclosed (t := Token.call _) (isWord_functionText hf) rfl ?_ (u := close) trivial rfl
    refine Lexable.intercalate (t := comma) trivial rfl rfl fun ts hts => ?_
    obtain ⟨a, ha, rfl⟩ := List.mem_map.1 hts
    exact ih a ha (hargs a ha)
  | call id arg ih =>
    obtain ⟨hword, -, harg⟩ := readable_call.1 h
    rw [tokens]
    exact lexable_enclosed (t := Token.call _) hword rfl (ih harg) (u := close) trivial rfl
  | matrix rows columns entries ih =>
    rw [tokens, tokensOf_eq_map, tableTokens]
    split
    · exact .singleton (t := emptyTable) trivial
    · refine lexable_enclosed (t := openTable) trivial rfl ?_ (u := closeTable) trivial rfl
      refine Lexable.intercalate (t := nextRow) trivial rfl rfl fun ts hts => ?_
      obtain ⟨row, hrow, rfl⟩ := List.mem_map.1 hts
      refine Lexable.intercalate (t := comma) trivial rfl rfl fun ts hts => ?_
      obtain ⟨a, ha, rfl⟩ := List.mem_map.1 (mem_of_mem_pieces hrow hts)
      exact ih a ha (readable_matrix.1 h a ha)

end Expression

end Resolvent

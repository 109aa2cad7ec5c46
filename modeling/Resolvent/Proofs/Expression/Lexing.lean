import Mathlib.Data.List.Chain

/-!
# Signs of texts

A text is a sequence of signs (`Token`): numerals, words, calls, operators and brackets.  `lex` cuts
a text into signs from the left, each as long as possible.  Signs that can stand side by side
(`Token.Lexable`) are found again in the text that they make (`lex_spell`).
-/

namespace Resolvent

/-! ### Signs -/

/-- A sign of a text. -/
inductive Token where
  /-- An unsigned number. -/
  | numeral (digits : List Char)
  /-- The name of a symbol or a constant. -/
  | word (name : List Char)
  /-- The name of a function and the parenthesis behind it. -/
  | call (name : List Char)
  /-- The imaginary unit, which may stand directly behind a word. -/
  | imaginaryUnit
  | plus | minus | times | slash | caret | openGroup | close | comma
  /-- The matrix without rows. -/
  | emptyTable
  /-- The beginning of a matrix and of its first row. -/
  | openTable
  /-- The end of a row and the beginning of the next. -/
  | nextRow
  /-- The end of the last row and of the matrix. -/
  | closeTable
  deriving DecidableEq, Repr

namespace Token

/-- The characters of a sign. -/
def chars : Token → List Char
  | numeral digits => digits
  | word name => name
  | call name => name ++ ['(']
  | imaginaryUnit => ['𝐢']
  | plus => ['+']
  | minus => ['-']
  | times => ['×']
  | slash => ['/']
  | caret => ['^']
  | openGroup => ['(']
  | close => [')']
  | comma => [',']
  | emptyTable => ['[', ']']
  | openTable => ['[', '[']
  | nextRow => [']', '[']
  | closeTable => [']', ']']

/-- The text that signs make. -/
def spell (ts : List Token) : List Char := ts.flatMap chars

@[simp] theorem spell_nil : spell [] = [] := rfl

@[simp] theorem spell_cons (t : Token) (ts : List Token) : spell (t :: ts) = t.chars ++ spell ts :=
  List.flatMap_cons

@[simp] theorem spell_append (ts us : List Token) : spell (ts ++ us) = spell ts ++ spell us :=
  List.flatMap_append

end Token

/-- A character that words are made of: any but those of other signs. -/
def isWordChar (c : Char) : Bool :=
  !(['+', '-', '×', '/', '^', '(', ')', ',', '[', ']', '𝐢'].contains c)

/-- A character that a numeral may go on with, behind another one. -/
def continuesNumeral (previous c : Char) : Bool :=
  c.isDigit || c == '.' || c == 'ᴇ' || (c == '-' && previous == 'ᴇ')

/-- Cuts off what continues a numeral. -/
def takeNumeral : Char → List Char → List Char × List Char
  | _, [] => ([], [])
  | previous, c :: cs =>
    if continuesNumeral previous c then (c :: (takeNumeral c cs).1, (takeNumeral c cs).2)
    else ([], c :: cs)

/-- A sign that no name or numeral begins with, and what is behind it. -/
def takeSign? : List Char → Option (Token × List Char)
  | '𝐢' :: cs => some (.imaginaryUnit, cs)
  | '+' :: cs => some (.plus, cs)
  | '-' :: cs => some (.minus, cs)
  | '×' :: cs => some (.times, cs)
  | '/' :: cs => some (.slash, cs)
  | '^' :: cs => some (.caret, cs)
  | '(' :: cs => some (.openGroup, cs)
  | ')' :: cs => some (.close, cs)
  | ',' :: cs => some (.comma, cs)
  | '[' :: ']' :: cs => some (.emptyTable, cs)
  | '[' :: '[' :: cs => some (.openTable, cs)
  | ']' :: '[' :: cs => some (.nextRow, cs)
  | ']' :: ']' :: cs => some (.closeTable, cs)
  | _ => none

/-- A word, or a call if a parenthesis is behind it, and what follows. -/
def takeName (cs : List Char) : Token × List Char :=
  let name := cs.takeWhile isWordChar
  let rest := cs.dropWhile isWordChar
  if rest.head? = some '(' then (.call name, rest.tail) else (.word name, rest)

/-- The first sign of a text, and what is behind it. -/
def takeToken? : List Char → Option (Token × List Char)
  | [] => none
  | c :: cs =>
    if c.isDigit then some (.numeral (c :: (takeNumeral c cs).1), (takeNumeral c cs).2)
    else if isWordChar c then some (takeName (c :: cs))
    else takeSign? (c :: cs)

/-- Cuts a text into at most a number of signs. -/
def lexWith : Nat → List Char → Option (List Token)
  | _, [] => some []
  | 0, _ :: _ => none
  | fuel + 1, c :: cs =>
    (takeToken? (c :: cs)).bind fun (t, rest) => (lexWith fuel rest).map (t :: ·)

/-- Cuts a text into signs; there are at most as many as characters. -/
def lex (cs : List Char) : Option (List Token) := lexWith cs.length cs

/-! ### Names and numerals -/

/-- The characters make a word that can be told from a numeral and its continuation. -/
def isWord : List Char → Bool
  | [] => false
  | c :: cs => !c.isDigit && c != '.' && c != 'ᴇ' && (c :: cs).all isWordChar

/-- The characters make a numeral: after a digit, each continues it, and no exponent is missing. -/
def IsNumeral : List Char → Prop
  | [] => False
  | c :: cs => c.isDigit = true ∧ (c :: cs).IsChain (fun p d => continuesNumeral p d = true) ∧
      (c :: cs).getLast? ≠ some 'ᴇ'

/-- What is behind a numeral does not continue it. -/
theorem takeNumeral_append {c : Char} {cs rest : List Char}
    (h : (c :: cs).IsChain fun p d => continuesNumeral p d = true)
    (hlast : (c :: cs).getLast? ≠ some 'ᴇ')
    (hrest : ∀ d ∈ rest.head?, continuesNumeral '0' d = false) :
    takeNumeral c (cs ++ rest) = (cs, rest) := by
  induction cs generalizing c with
  | nil =>
    cases rest with
    | nil => rfl
    | cons d rest =>
      have hd : continuesNumeral c d = false := by
        have hzero := hrest d rfl
        have hc : c ≠ 'ᴇ' := fun h => hlast (by rw [h]; rfl)
        simpa [continuesNumeral, hc] using hzero
      rw [List.nil_append, takeNumeral, if_neg (by rw [hd]; exact Bool.false_ne_true)]
  | cons d cs ih =>
    obtain ⟨hd, htail⟩ := List.isChain_cons_cons.1 h
    rw [List.cons_append, takeNumeral, if_pos hd, ih htail (by simpa using hlast)]

namespace Token

/-- The sign is written as such signs are. -/
def IsProper : Token → Prop
  | numeral digits => IsNumeral digits
  | word name | call name => isWord name = true
  | _ => True

/-- A sign that stands behind another one is not taken for a part of it. -/
def Follows : Token → Token → Prop
  | numeral _, numeral _ => False
  | word _, numeral _ | word _, word _ | word _, call _ | word _, openGroup => False
  | _, _ => True

/-- The signs are found again in the text that they make. -/
structure Lexable (ts : List Token) : Prop where
  /-- All signs are proper. -/
  proper : ∀ t ∈ ts, t.IsProper
  /-- Each can stand behind the one before. -/
  chain : ts.IsChain Follows

/-- A sign that may be taken for a part of the sign before. -/
def begins : Token → Bool
  | numeral _ | word _ | call _ | openGroup => true
  | _ => false

/-- A sign that an operand begins with. -/
def beginsOperand : Token → Bool
  | numeral _ | word _ | call _ | imaginaryUnit | openGroup | emptyTable | openTable => true
  | _ => false

/-- A sign that the next one may be taken for a part of. -/
def ends : Token → Bool
  | numeral _ | word _ => true
  | _ => false

variable {t u : Token} {ts us : List Token}

theorem follows_of_not_begins (h : u.begins = false) : t.Follows u := by
  cases u with
  | numeral _ | word _ | call _ | openGroup => cases h
  | _ => cases t <;> trivial

theorem follows_of_not_ends (h : t.ends = false) : t.Follows u := by
  cases t with
  | numeral _ | word _ => cases h
  | _ => trivial

namespace Lexable

theorem nil : Lexable [] := ⟨fun _ h => absurd h List.not_mem_nil, List.IsChain.nil⟩

theorem singleton (h : t.IsProper) : Lexable [t] :=
  ⟨fun u hu => by rwa [List.mem_singleton.1 hu], List.IsChain.singleton t⟩

theorem append (hts : Lexable ts) (hus : Lexable us)
    (h : ∀ t ∈ ts.getLast?, ∀ u ∈ us.head?, t.Follows u) : Lexable (ts ++ us) :=
  ⟨fun t ht => (List.mem_append.1 ht).elim (hts.proper t) (hus.proper t),
    List.isChain_append.2 ⟨hts.chain, hus.chain, h⟩⟩

/-- Before a sign of its own kind anything can stand. -/
theorem append_of_not_begins (hts : Lexable ts) (hus : Lexable us)
    (h : ∀ u ∈ us.head?, u.begins = false) : Lexable (ts ++ us) :=
  hts.append hus fun _ _ u hu => follows_of_not_begins (h u hu)

/-- Behind a sign of its own kind anything can stand. -/
theorem cons (ht : t.IsProper) (hends : t.ends = false) (hts : Lexable ts) : Lexable (t :: ts) :=
  (singleton ht).append hts fun u hu _ _ => by
    cases hu
    exact follows_of_not_ends hends

theorem intercalate (ht : t.IsProper) (hbegins : t.begins = false) (hends : t.ends = false)
    {tss : List (List Token)} (h : ∀ ts ∈ tss, Lexable ts) : Lexable ([t].intercalate tss) := by
  induction tss with
  | nil => exact nil
  | cons ts tss ih =>
    obtain ⟨hts, htss⟩ := List.forall_mem_cons.1 h
    cases tss with
    | nil =>
      rw [List.intercalate_singleton]
      exact hts
    | cons us tss =>
      rw [List.intercalate_cons_cons, List.append_assoc]
      exact hts.append_of_not_begins ((ih htss).cons ht hends) fun u hu => by
        cases hu
        exact hbegins

end Lexable

/-- What is behind the sign is not taken for a part of it. -/
def StopsAt : Token → List Char → Prop
  | numeral _, rest => ∀ c ∈ rest.head?, continuesNumeral '0' c = false
  | word _, rest => ∀ c ∈ rest.head?, isWordChar c = false ∧ c ≠ '('
  | _, _ => True

theorem stopsAt_nil (t : Token) : t.StopsAt [] := by
  cases t with
  | numeral _ | word _ => exact fun c hc => by cases hc
  | _ => trivial

theorem chars_ne_nil {t : Token} (ht : t.IsProper) : t.chars ≠ [] := by
  cases t with
  | numeral digits =>
    rintro rfl
    exact ht
  | word name =>
    rintro rfl
    cases ht
  | call name => exact List.append_ne_nil_of_right_ne_nil _ (List.cons_ne_nil _ _)
  | _ => exact List.cons_ne_nil _ _

theorem stopsAt_of_follows {t u : Token} (hu : u.IsProper) (h : t.Follows u) (rest : List Char) :
    t.StopsAt (u.chars ++ rest) := by
  -- the first character of a name is none that a numeral goes on with
  have hname : ∀ {name : List Char}, isWord name = true →
      ∀ c ∈ (name ++ rest).head?, continuesNumeral '0' c = false := by
    intro name hname c hc
    cases name with
    | nil => cases hname
    | cons d name =>
      cases hc
      simp only [isWord, Bool.and_eq_true, Bool.not_eq_true', bne_iff_ne] at hname
      simp [continuesNumeral, hname.1.1.1, hname.1.1.2, hname.1.2]
  cases t with
  | numeral digits =>
    cases u with
    | numeral _ => exact h.elim
    | word name => exact hname hu
    | call name =>
      rw [chars, List.append_assoc]
      intro c hc
      refine hname hu c ?_
      cases name with
      | nil => cases hu
      | cons d name => exact hc
    | _ =>
      intro c hc
      cases hc
      decide
  | word name =>
    cases u with
    | numeral _ | word _ | call _ | openGroup => exact h.elim
    | _ =>
      intro c hc
      cases hc
      decide
  | _ => trivial

theorem takeToken?_name {name rest : List Char} (h : isWord name = true) :
    takeToken? (name ++ rest) = some (takeName (name ++ rest)) := by
  cases name with
  | nil => cases h
  | cons c cs =>
    simp only [isWord, Bool.and_eq_true, Bool.not_eq_true', List.all_cons] at h
    rw [List.cons_append, takeToken?, if_neg (by simp [h.1.1.1]), if_pos h.2.1]

theorem takeName_append {name rest : List Char} (h : isWord name = true)
    (hrest : ∀ c ∈ rest.head?, isWordChar c = false) : takeName (name ++ rest) =
      if rest.head? = some '(' then (call name, rest.tail) else (word name, rest) := by
  have hall : ∀ c ∈ name, isWordChar c = true := by
    cases name with
    | nil => cases h
    | cons c cs =>
      simp only [isWord, Bool.and_eq_true, List.all_eq_true] at h
      exact h.2
  have htake : rest.takeWhile isWordChar = [] := by
    cases rest with
    | nil => rfl
    | cons c rest => rw [List.takeWhile_cons, if_neg (by simp [hrest c rfl])]
  have hdrop : rest.dropWhile isWordChar = rest := by
    cases rest with
    | nil => rfl
    | cons c rest => rw [List.dropWhile_cons, if_neg (by simp [hrest c rfl])]
  rw [takeName, List.dropWhile_append_of_pos hall, List.takeWhile_append_of_pos hall, htake, hdrop,
    List.append_nil]

/-- The first sign of a text is cut off. -/
theorem takeToken?_chars {t : Token} (ht : t.IsProper) {rest : List Char} (h : t.StopsAt rest) :
    takeToken? (t.chars ++ rest) = some (t, rest) := by
  cases t with
  | numeral digits =>
    cases digits with
    | nil => exact ht.elim
    | cons c cs =>
      obtain ⟨hdigit, hchain, hlast⟩ := ht
      rw [chars, List.cons_append, takeToken?, if_pos hdigit, takeNumeral_append hchain hlast h]
  | word name =>
    rw [chars, takeToken?_name ht, takeName_append ht fun c hc => (h c hc).1,
      if_neg fun hc : rest.head? = some '(' => (h '(' hc).2 rfl]
  | call name =>
    rw [chars, List.append_assoc, takeToken?_name ht,
      takeName_append ht fun c hc => by cases hc; decide]
    rfl
  | _ => rfl

end Token

/-! ### Cutting -/

theorem lexWith_succ (fuel : Nat) {cs : List Char} (h : cs ≠ []) : lexWith (fuel + 1) cs =
    (takeToken? cs).bind fun x => (lexWith fuel x.2).map (x.1 :: ·) := by
  cases cs with
  | nil => exact absurd rfl h
  | cons c cs => rfl

/-- Signs that can stand side by side are found again in the text that they make. -/
theorem lex_spell {ts : List Token} (h : Token.Lexable ts) : lex (Token.spell ts) = some ts := by
  have hlex : ∀ (ts : List Token) (fuel : Nat), ts.length ≤ fuel → Token.Lexable ts →
      lexWith fuel (Token.spell ts) = some ts := by
    intro ts
    induction ts with
    | nil =>
      intro fuel _ _
      cases fuel <;> rfl
    | cons t ts ih =>
      intro fuel hfuel hlexable
      obtain ⟨fuel, rfl⟩ : ∃ n, fuel = n + 1 := ⟨fuel - 1, by simp at hfuel; omega⟩
      have ht := hlexable.proper t List.mem_cons_self
      have hstops : t.StopsAt (Token.spell ts) := by
        cases ts with
        | nil => exact Token.stopsAt_nil t
        | cons u us =>
          exact Token.stopsAt_of_follows (hlexable.proper u (by simp))
            (List.isChain_cons_cons.1 hlexable.chain).1 _
      rw [Token.spell_cons, lexWith_succ fuel (by simp [Token.chars_ne_nil ht]),
        Token.takeToken?_chars ht hstops, Option.bind_some, ih fuel (by simpa using hfuel)
          ⟨fun u hu => hlexable.proper u (List.mem_cons_of_mem _ hu), hlexable.chain.tail⟩]
      rfl
  refine hlex ts _ ?_ h
  -- every sign has a character
  have hproper := h.proper
  clear h hlex
  induction ts with
  | nil => exact Nat.zero_le _
  | cons t ts ih =>
    have ht := List.length_pos_iff.2 (Token.chars_ne_nil (hproper t List.mem_cons_self))
    have hts := ih fun u hu => hproper u (List.mem_cons_of_mem _ hu)
    rw [Token.spell_cons, List.length_append, List.length_cons]
    omega

end Resolvent

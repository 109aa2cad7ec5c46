import Resolvent.Proofs.Expression.Along
import Resolvent.Solve.Equation

/-!
# Texts of equations

A text lists items if these are runs of characters without white space and parentheses, or balanced
texts in parentheses, with white space between them and around them (`Equation.Lists`).  Cutting such
a text gives back its items, whatever the nesting.

Between two items of such a text nothing is at hand and no parenthesis is open.  A balanced text
inside a group is taken as it is (`Cut.foldl_balanced`), so the group is completed by its own last
parenthesis; a run is completed by the white space behind it or by the end of the text
(`Cut.foldl_item`).

Hence `(= l r)` is the equation whose sides are read from `l` and then from `r`, and a list of any
other number of items is refused before anything is stored (`Equation.parse_of_lists`).
-/

namespace Resolvent

namespace Text

/-- A text of white space only. -/
def IsGap (cs : List Char) : Prop := ∀ c ∈ cs, isBlank c = true

theorem trim_of_gaps {before after cs : List Char} {first last : Char} (hbefore : IsGap before)
    (hafter : IsGap after) (hfirst : isBlank first = false) (hlast : isBlank last = false) :
    trim (before ++ first :: cs ++ last :: after) = first :: cs ++ [last] := by
  have hstart : trimStart (before ++ first :: cs ++ last :: after) =
      first :: cs ++ last :: after := by
    rw [trimStart, List.append_assoc, List.dropWhile_append_of_pos hbefore]
    exact trimStart_of_not_blank hfirst
  have hend : IsGap after.reverse := fun c hc => hafter c (List.mem_reverse.1 hc)
  rw [trim, hstart, trimEnd, List.reverse_append, List.reverse_cons, List.append_assoc,
    List.dropWhile_append_of_pos hend]
  simp [hlast]

end Text

namespace Equation

open Text (IsGap isBlank)

/-! ### Lists of items -/

/-- Each parenthesis of the text has its partner. -/
inductive Balanced : List Char → Prop where
  | nil : Balanced []
  | char {c : Char} {cs : List Char} (hopen : c ≠ '(') (hclose : c ≠ ')') (h : Balanced cs) :
    Balanced (c :: cs)
  | group {inner rest : List Char} (hinner : Balanced inner) (hrest : Balanced rest) :
    Balanced ('(' :: inner ++ ')' :: rest)

/-- The text is a run of characters without white space and parentheses, or a balanced text in
parentheses. -/
inductive IsItem : List Char → Prop where
  | run {cs : List Char} (hcs : cs ≠ []) (h : ∀ c ∈ cs, isBlank c = false ∧ c ≠ '(' ∧ c ≠ ')') :
    IsItem cs
  | group {inner : List Char} (h : Balanced inner) : IsItem ('(' :: inner ++ [')'])

/-- The text lists the items, with white space between them and perhaps around them. -/
inductive Lists : List (List Char) → List Char → Prop where
  | nil {gap : List Char} (hgap : IsGap gap) : Lists [] gap
  | cons {gap item rest : List Char} {items : List (List Char)} (hgap : IsGap gap)
    (hitem : IsItem item) (hrest : Lists items rest) (hseparated : ∀ c ∈ rest.head?, isBlank c = true) :
    Lists (item :: items) (gap ++ item ++ rest)

/-! ### Cutting -/

namespace Cut

variable {s : Cut} {c : Char} {cs inner item rest : List Char} {items : List (List Char)}

theorem step_blank (hc : isBlank c = true) (hs : s.depth = 0) : s.step c = s.close := by
  have hopen : c ≠ '(' := by rintro rfl; exact absurd hc (by decide)
  have hclose : c ≠ ')' := by rintro rfl; exact absurd hc (by decide)
  simp [step, hopen, hclose, hc, hs]

theorem step_char (hopen : c ≠ '(') (hclose : c ≠ ')') (h : isBlank c = false ∨ s.depth ≠ 0) :
    s.step c = { s with current := c :: s.current } := by
  simp only [step, hopen, hclose, if_false]
  rcases h with h | h <;> simp [h]

theorem foldl_gap (hcs : IsGap cs) (items : List (List Char)) :
    cs.foldl step ⟨items, [], 0⟩ = ⟨items, [], 0⟩ := by
  induction cs with
  | nil => rfl
  | cons c cs ih =>
    obtain ⟨hc, hcs⟩ := List.forall_mem_cons.1 hcs
    rw [List.foldl_cons, step_blank hc rfl]
    exact ih hcs

theorem foldl_run (h : ∀ c ∈ cs, isBlank c = false ∧ c ≠ '(' ∧ c ≠ ')') (s : Cut) :
    cs.foldl step s = { s with current := cs.reverse ++ s.current } := by
  induction cs generalizing s with
  | nil => rfl
  | cons c cs ih =>
    obtain ⟨⟨hblank, hopen, hclose⟩, hcs⟩ := List.forall_mem_cons.1 h
    rw [List.foldl_cons, step_char hopen hclose (.inl hblank), ih hcs]
    simp

/-- Within parentheses a balanced text becomes part of the item at hand. -/
theorem foldl_balanced (h : Balanced inner) (current : List Char) (depth : Nat) :
    inner.foldl step ⟨items, current, depth + 1⟩ =
      ⟨items, inner.reverse ++ current, depth + 1⟩ := by
  induction h generalizing current depth with
  | nil => rfl
  | char hopen hclose _ ih =>
    rw [List.foldl_cons, step_char hopen hclose (.inr (Nat.succ_ne_zero _)), ih]
    simp
  | @group inner rest _ _ ihinner ihrest =>
    have hopen : step ⟨items, current, depth + 1⟩ '(' = ⟨items, '(' :: current, depth + 2⟩ := rfl
    -- the parenthesis that closes the group leaves the outer one open
    have hclose : step ⟨items, inner.reverse ++ '(' :: current, depth + 2⟩ ')' =
        ⟨items, ')' :: (inner.reverse ++ '(' :: current), depth + 1⟩ := by simp [step]
    rw [List.foldl_append, List.foldl_cons, List.foldl_cons, hopen, ihinner, hclose, ihrest]
    simp

theorem foldl_group (h : Balanced inner) (items : List (List Char)) :
    ('(' :: inner ++ [')']).foldl step ⟨items, [], 0⟩ = ⟨('(' :: inner ++ [')']) :: items, [], 0⟩ := by
  have hopen : step ⟨items, [], 0⟩ '(' = ⟨items, ['('], 1⟩ := rfl
  rw [List.foldl_append, List.foldl_cons, List.foldl_cons, hopen, foldl_balanced h]
  simp [step, close]

/-- White space and the end of the text complete the item at hand. -/
theorem close_foldl_close (hs : s.depth = 0) (hrest : ∀ c ∈ rest.head?, isBlank c = true) :
    (rest.foldl step s.close).close = (rest.foldl step s).close := by
  cases rest with
  | nil => exact s.close_close
  | cons c rest =>
    have hc := hrest c rfl
    have hclose : s.close.depth = 0 := by
      unfold close
      split <;> exact hs
    rw [List.foldl_cons, List.foldl_cons, step_blank hc hs, step_blank hc hclose, close_close]

/-- An item that white space or the end of the text follows is completed as it stands. -/
theorem foldl_item (hitem : IsItem item) (hrest : ∀ c ∈ rest.head?, isBlank c = true)
    (items : List (List Char)) :
    ((item ++ rest).foldl step ⟨items, [], 0⟩).close =
      (rest.foldl step ⟨item :: items, [], 0⟩).close := by
  rw [List.foldl_append]
  cases hitem with
  | run hitem h =>
    rw [foldl_run h, ← close_foldl_close rfl hrest]
    simp [close, hitem]
  | group h => rw [foldl_group h]

end Cut

theorem items_of_lists {items : List (List Char)} {text : List Char} (h : Lists items text)
    (done : List (List Char)) :
    (text.foldl Cut.step ⟨done, [], 0⟩).close.items = items.reverse ++ done := by
  induction h generalizing done with
  | nil hgap =>
    rw [Cut.foldl_gap hgap]
    rfl
  | cons hgap hitem _ hseparated ih =>
    rw [List.append_assoc, List.foldl_append, Cut.foldl_gap hgap, Cut.foldl_item hitem hseparated, ih]
    simp

/-- A text that lists items is cut into these items. -/
theorem splitItems_of_lists {items : List (List Char)} {text : List Char} (h : Lists items text) :
    splitItems text = items := by
  have hitems := items_of_lists h []
  rw [List.append_nil] at hitems
  exact (congrArg List.reverse hitems).trans items.reverse_reverse

/-! ### Reading an equation -/

section Parse

variable {before gap inner after : List Char} {text : String}

theorem inside?_of_gaps (hbefore : IsGap before) (hgap : IsGap gap) (hafter : IsGap after)
    (htext : text.toList = before ++ '(' :: gap ++ '=' :: inner ++ ')' :: after) :
    inside? text = some inner := by
  obtain ⟨list, hlist⟩ : ∃ list, list = gap ++ '=' :: inner := ⟨_, rfl⟩
  have htrim : Text.trim text.toList = '(' :: list ++ [')'] := by
    rw [htext, ← Text.trim_of_gaps hbefore hafter (by decide) (by decide), hlist]
    simp
  have hstart : Text.trimStart list = '=' :: inner := by
    rw [hlist, Text.trimStart, List.dropWhile_append_of_pos hgap]
    exact Text.trimStart_of_not_blank (by decide)
  simp [inside?, htrim, hstart]

theorem parse_run_of_ne_two (read : Term.Reader) (h : inside? text = some inner)
    (hlength : (splitItems inner).length ≠ 2) (A : Arena) :
    parse read text A = (.error (.malformed text), A) := by
  unfold parse
  rw [h, Option.map_some]
  rcases hitems : splitItems inner with - | ⟨l, - | ⟨r, - | ⟨x, items⟩⟩⟩
  · rfl
  · rfl
  · exact absurd (congrArg List.length hitems) hlength
  · rfl

theorem parse_run_of_two (read : Term.Reader) {l r : List Char} (h : inside? text = some inner)
    (hitems : splitItems inner = [l, r]) (A : Arena) :
    parse read text A = match Build.ofText read (String.ofList l) A with
      | (.error e, B) => (.error (.unreadable e), B)
      | (.ok lhs, B) => match Build.ofText read (String.ofList r) B with
        | (.error e, C) => (.error (.unreadable e), C)
        | (.ok rhs, C) => (.ok ⟨lhs, rhs⟩, C) := by
  unfold parse
  rw [h, Option.map_some, hitems]
  dsimp only
  rw [bind_run, adapt_run]
  rcases Build.ofText read (String.ofList l) A with ⟨e | lhs, B⟩
  · rfl
  · dsimp only [Except.mapError]
    rw [bind_run, adapt_run]
    rcases Build.ofText read (String.ofList r) B with ⟨e | rhs, C⟩ <;> rfl

end Parse

/-- A text that lists items is cut into them.  A list in parentheses that begins with the sign `=` is
an equation if it has two items more, whose sides are read one after the other; with any other number
of items it is refused, and the arena is left as it is. -/
theorem parse_of_lists {items : List (List Char)} {inner : List Char} (h : Lists items inner) :
    splitItems inner = items ∧
    ∀ {before gap after : List Char}, IsGap before → IsGap gap → IsGap after → ∀ {text : String},
      text.toList = before ++ '(' :: gap ++ '=' :: inner ++ ')' :: after →
      (∀ read l r, items = [l, r] → ∀ A, parse read text A =
        match Build.ofText read (String.ofList l) A with
        | (.error e, B) => (.error (.unreadable e), B)
        | (.ok lhs, B) => match Build.ofText read (String.ofList r) B with
          | (.error e, C) => (.error (.unreadable e), C)
          | (.ok rhs, C) => (.ok ⟨lhs, rhs⟩, C)) ∧
      (items.length ≠ 2 → ∀ read A, parse read text A = (.error (.malformed text), A)) := by
  have hitems := splitItems_of_lists h
  refine ⟨hitems, fun hbefore hgap hafter text htext => ?_⟩
  have hinside := inside?_of_gaps hbefore hgap hafter htext
  refine ⟨fun read l r hlr => ?_, fun hlength read => ?_⟩
  · exact parse_run_of_two read hinside (hitems.trans hlr)
  · exact parse_run_of_ne_two read hinside (hitems.symm ▸ hlength)

theorem balanced_nested : Balanced ['+', ' ', 'x', ' ', '(', '*', ' ', '2', ' ', 'y', ')'] := by
  have hinner : Balanced ['*', ' ', '2', ' ', 'y'] := by
    repeat refine .char (by decide) (by decide) ?_
    exact .nil
  repeat refine .char (by decide) (by decide) ?_
  exact .group hinner .nil

theorem lists_nested :
    Lists ["(+ x (* 2 y))".toList, "π".toList] " (+ x (* 2 y))\u2003π".toList := by
  have hgap : ∀ {c : Char}, isBlank c = true → IsGap [c] := fun hc => List.forall_mem_singleton.2 hc
  have hpi : IsItem ['π'] := .run (List.cons_ne_nil _ _) (List.forall_mem_singleton.2 (by decide))
  have hlast : Lists [['π']] (['\u2003'] ++ ['π'] ++ []) :=
    .cons (hgap (by decide)) hpi (.nil nofun) nofun
  refine Lists.cons (hgap (c := ' ') (by decide)) (.group balanced_nested) hlast ?_
  rintro _ ⟨⟩
  rfl

/-- The equation `x + 2y = π`. -/
theorem parse_of_lists_nested :
    Lists ["(+ x (* 2 y))".toList, "π".toList] " (+ x (* 2 y))\u2003π".toList ∧
    splitItems " (+ x (* 2 y))\u2003π".toList = ["(+ x (* 2 y))".toList, "π".toList] ∧
    ∀ read A, parse read "(= (+ x (* 2 y))\u2003π)\n" A = match Build.ofText read "(+ x (* 2 y))" A with
      | (.error e, B) => (.error (.unreadable e), B)
      | (.ok lhs, B) => match Build.ofText read "π" B with
        | (.error e, C) => (.error (.unreadable e), C)
        | (.ok rhs, C) => (.ok ⟨lhs, rhs⟩, C) := by
  obtain ⟨hitems, hparse⟩ := parse_of_lists lists_nested
  have htext : "(= (+ x (* 2 y))\u2003π)\n".toList =
      [] ++ '(' :: [] ++ '=' :: " (+ x (* 2 y))\u2003π".toList ++ ')' :: ['\n'] := by
    decide +kernel
  have hnone : IsGap [] := nofun
  have hend : IsGap ['\n'] := List.forall_mem_singleton.2 (by decide)
  refine ⟨lists_nested, hitems, fun read A => ?_⟩
  have h := (hparse hnone hnone hend htext).1 read _ _ rfl A
  rwa [String.ofList_toList, String.ofList_toList] at h

end Equation

end Resolvent

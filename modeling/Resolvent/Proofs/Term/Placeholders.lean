import Resolvent.Proofs.Expression.WellFormed
import Resolvent.Proofs.Term.Values
import Resolvent.Term.OfArena

/-!
# Placeholders and symbols of terms

What holds of a stored expression and is handed down from a node to its operands holds of all that
the placeholders in the term of the expression stand for; and the term has no symbols but those of
the nodes on the way, besides constants and placeholders (`Lowering.Admits.pushExpression`).  In
particular, what placeholders stand for is stored (`Arena.contains_of_mem_term`).
-/

namespace Resolvent

/-- The head stands for a symbol of a class, a constant or a placeholder, or for no symbol at all; it
is no call of a user function, whose name would be one. -/
inductive Head.SymbolsIn (names : Symbols) (S : Nat → Prop) : Head → Prop where
  | number (n : Int) : SymbolsIn names S (.number n)
  | symbol {id : Nat} {name : String} (hname : names.id? name = some id) (hid : S id) :
    SymbolsIn names S (.symbol name)
  | constant (c : Constant) : SymbolsIn names S (.symbol c.text)
  | placeholder (k : Nat) : SymbolsIn names S (.symbol ("$" ++ toString k))
  | op {o : Operator} (ho : o ≠ .call) : SymbolsIn names S (.op o)

namespace Lowering

variable {α β : Type} {names : Symbols} {S : Nat → Prop} {P : Handle → Prop}

/-- The placeholders stand for expressions with a property, and the cells have symbols of a class. -/
structure Decent (names : Symbols) (S : Nat → Prop) (P : Handle → Prop) (s : Lowering) : Prop where
  placeholders : ∀ h ∈ s.placeholders, P h
  heads : s.term.HeadsIn (Head.SymbolsIn names S)

theorem Decent.empty : Decent names S P {} := ⟨by simp, fun c hc => by simp at hc⟩

/-- Lowering adds no placeholders but for expressions with a property, and no symbols but those of a
class. -/
def Admits (names : Symbols) (S : Nat → Prop) (P : Handle → Prop) (m : StateM Lowering α) : Prop :=
  ∀ s, Decent names S P s → Decent names S P (m s).2

namespace Admits

theorem pure (a : α) : Admits names S P (Pure.pure a : StateM Lowering α) := fun _ hs => hs

theorem bind {m : StateM Lowering α} {f : α → StateM Lowering β} (hm : Admits names S P m)
    (hf : ∀ a, Admits names S P (f a)) : Admits names S P (m >>= f) := fun s hs => hf _ _ (hm s hs)

theorem mapM {f : α → StateM Lowering β} {as : List α} (hf : ∀ a ∈ as, Admits names S P (f a)) :
    Admits names S P (as.mapM f) := by
  induction as with
  | nil => exact pure _
  | cons a as ih =>
    rw [List.mapM_cons]
    exact (hf a List.mem_cons_self).bind fun b =>
      (ih fun c hc => hf c (List.mem_cons_of_mem _ hc)).bind fun bs => pure _

theorem foldlM {f : β → α → StateM Lowering β} (hf : ∀ b a, Admits names S P (f b a)) (as : List α) (b : β) :
    Admits names S P (as.foldlM f b) := by
  induction as generalizing b with
  | nil => exact pure _
  | cons a as ih =>
    rw [List.foldlM_cons]
    exact (hf b a).bind ih

theorem push {c : Cell} (hc : c.head.SymbolsIn names S) : Admits names S P (push c) := fun _ hs =>
  ⟨hs.placeholders, Term.headsIn_push_iff.2 ⟨hs.heads, hc⟩⟩

theorem pushOperator {o : Operator} (ho : o ≠ .call) (is : List Nat) :
    Admits names S P (Lowering.push ⟨.op o, is⟩) := push (.op ho)

theorem remember (h : Handle) (i : Nat) : Admits names S P (remember h i) := fun _ hs =>
  ⟨hs.placeholders, hs.heads⟩

theorem pushPlaceholder {h : Handle} (hh : P h) : Admits names S P (pushPlaceholder h) := by
  refine fun s hs => ⟨fun k hk => ?_, Term.headsIn_push_iff.2 ⟨hs.heads, .placeholder _⟩⟩
  rcases Array.mem_push.1 hk with hk | rfl
  · exact hs.placeholders k hk
  · exact hh

theorem pushChain {o : Operator} (ho : o ≠ .call) (is : List Nat) :
    Admits names S P (pushChain o is) := by
  cases is with
  | nil => exact push (.number 0)
  | cons i is => exact foldlM (fun _ _ => pushOperator ho _) is i

variable {go : Handle → StateM Lowering Nat} {h : Handle} {args : List Handle}

theorem pushFunction (hh : P h) (code : Nat) (hargs : ∀ c ∈ args, Admits names S P (go c)) :
    Admits names S P (pushFunction go h code args) := by
  unfold Lowering.pushFunction
  split
  · exact pushPlaceholder hh
  · refine (hargs _ List.mem_cons_self).bind fun i => ?_
    split
    · exact pushPlaceholder hh
    · exact pushPlaceholder hh
    · exact (hargs _ (by simp)).bind fun j => pushOperator (by simp) _
    · exact pushOperator (by simp) _

theorem pushNode {A : Arena} {n : Node} (hh : P h)
    (hsymbol : ∀ id, n = .symbol id → S id ∧ id ≤ Symbols.maxId)
    (hn : ∀ c ∈ n.children, Admits A.symbols S P (go c)) :
    Admits A.symbols S P (pushNode A go h n) := by
  cases n with
  | integer n => exact push (.number n)
  | constant c => exact push (.constant c)
  | symbol id =>
    rw [Lowering.pushNode]
    split
    · next hname =>
      obtain ⟨hid, hword⟩ := hsymbol id rfl
      exact push (.symbol (Symbols.id?_of_name? hword hname) hid)
    · exact pushPlaceholder hh
  | sum args => exact (mapM hn).bind fun is => pushChain (by simp) is
  | product args => exact (mapM hn).bind fun is => pushChain (by simp) is
  | power base exponent =>
    have hexponent := hn exponent (by simp [Node.children])
    rw [Lowering.pushNode]
    split
    · exact hexponent.bind fun i => pushOperator (by simp) _
    · exact (hn base (by simp [Node.children])).bind fun i =>
        hexponent.bind fun j => pushOperator (by simp) _
  | opposite arg => exact (hn arg (by simp [Node.children])).bind fun i => pushOperator (by simp) _
  | quotient numerator denominator =>
    exact (hn numerator (by simp [Node.children])).bind fun i =>
      (hn denominator (by simp [Node.children])).bind fun j => pushOperator (by simp) _
  | apply code args => exact pushFunction hh code hn
  | fraction _ | float _ | undefined | unreal | call _ _ | matrix _ _ _ => exact pushPlaceholder hh

/-- What is handed down to operands holds of all that placeholders stand for, and of the nodes that
symbols come from. -/
theorem pushExpression {A : Arena}
    (hP : ∀ h n, P h → A.node? h = some n → ∀ c ∈ n.children, P c)
    (hS : ∀ h id, P h → A.node? h = some (.symbol id) → S id ∧ id ≤ Symbols.maxId) (depth : Nat)
    {h : Handle} (hh : P h) :
    Admits A.symbols S P (pushExpression A depth h) := by
  induction depth generalizing h with
  | zero => exact pushPlaceholder hh
  | succ depth ih =>
    refine bind (fun _ hs => hs) fun s => ?_
    split
    · exact pure _
    · dsimp only
      split
      · next n hn =>
        have hnode := pushNode hh (fun id hid => hS h id hh (hid ▸ hn)) fun c hc =>
          ih (hP h n hh hn c hc)
        exact hnode.bind fun i => remember h i
      · exact (pushPlaceholder hh).bind fun i => remember h i

end Admits

end Lowering

/-- What a placeholder in the term of a stored expression stands for is stored. -/
theorem Arena.contains_of_mem_term {A : Arena} (hA : A.WellFormed) {h c : Handle}
    (hh : A.contains h = true) (hc : c ∈ (A.term h).2) : A.contains c = true := by
  have hdecent := Lowering.Admits.pushExpression (S := fun _ => True)
    (fun _ n _ hn c hc => (hA.admits hn).operands c hc)
    (fun c id _ hn => ⟨trivial, (hA.named c _ hn id rfl).2⟩) A.nodes.size hh {} .empty
  exact hdecent.placeholders c (Array.mem_toList_iff.1 hc)

end Resolvent

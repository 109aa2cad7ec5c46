import Resolvent.Proofs.Expression.Denotation
import Resolvent.Term.Import
import Resolvent.Term.OfArena

/-!
# Storing the same things in two arenas

Two well-formed arenas with the same names are twins.  A handle of the one corresponds to a handle
of the other if both denote the same expression; as no expression is stored twice, this relates each
handle to at most one (`Arena.Twins.eq_iff`).  The terms of corresponding handles are equal, and
their placeholders correspond (`Arena.Twins.term`).

Two runs, each in one of two twins, agree if they have the same outcome as far as expressions go:
corresponding results or the same error, in arenas that are twins again.  Either arena may be full
before the other, so nothing is said where one of the runs stops for want of room.

Storing a term over corresponding placeholders agrees (`Term.build_agree`).
-/

namespace Resolvent

/-- Two well-formed arenas have the same names. -/
structure Arena.Twins (A B : Arena) : Prop where
  left : A.WellFormed
  right : B.WellFormed
  symbols : A.symbols = B.symbols

/-- The handles, one of each arena, denote the same expression. -/
def Corresponds (h k : Handle) (A B : Arena) : Prop := ∃ e, Denotes e h A ∧ Denotes e k B

/-- The handles correspond one by one. -/
abbrev CorrespondAll (hs ks : List Handle) (A B : Arena) : Prop :=
  List.Forall₂ (fun h k => Corresponds h k A B) hs ks

variable {A B A' B' : Arena} {h h' k k' : Handle} {hs ks : List Handle}

theorem Corresponds.grow (hhk : Corresponds h k A B) (hA : A.GrowsTo A') (hB : B.GrowsTo B') :
    Corresponds h k A' B' := by
  obtain ⟨e, hh, hk⟩ := hhk
  exact ⟨e, hA.expression? hh, hB.expression? hk⟩

theorem CorrespondAll.grow (hhk : CorrespondAll hs ks A B) (hA : A.GrowsTo A')
    (hB : B.GrowsTo B') : CorrespondAll hs ks A' B' := hhk.imp fun _ _ h => h.grow hA hB

theorem Corresponds.expression_eq (hhk : Corresponds h k A B) : A.expression h = B.expression k := by
  obtain ⟨e, hh, hk⟩ := hhk
  rw [hh.expression_eq, hk.expression_eq]

theorem correspondAll_of_denotesAll {es : List Expression} (hh : DenotesAll es hs A)
    (hk : DenotesAll es ks B) : CorrespondAll hs ks A B := by
  induction hs generalizing es ks with
  | nil =>
    obtain rfl := denotesAll_nil.1 hh
    obtain rfl := List.length_eq_zero_iff.1 hk.length_eq
    exact .nil
  | cons h hs ih =>
    obtain ⟨x, xs, rfl, hx, hxs⟩ := denotesAll_cons_iff.1 hh
    cases ks with
    | nil => cases denotesAll_nil.1 hk
    | cons k ks =>
      obtain ⟨y, ys, hys, hy, hyks⟩ := denotesAll_cons_iff.1 hk
      obtain ⟨rfl, rfl⟩ := List.cons.inj hys
      exact .cons ⟨x, hx, hy⟩ (ih hxs hyks)

theorem exists_of_denotesAll_one {x : Expression} (hh : DenotesAll [x] hs A)
    (hk : DenotesAll [x] ks B) : ∃ a b, hs = [a] ∧ ks = [b] ∧ Corresponds a b A B := by
  have hall := correspondAll_of_denotesAll hh hk
  obtain ⟨a, rfl⟩ := List.length_eq_one_iff.1 hh.length_eq
  obtain ⟨b, rfl⟩ := List.length_eq_one_iff.1 hk.length_eq
  exact ⟨a, b, rfl, rfl, (List.forall₂_cons.1 hall).1⟩

theorem exists_of_denotesAll_two {x y : Expression} (hh : DenotesAll [x, y] hs A)
    (hk : DenotesAll [x, y] ks B) : ∃ a a' b b', hs = [a, a'] ∧ ks = [b, b'] ∧
      Corresponds a b A B ∧ Corresponds a' b' A B := by
  have hall := correspondAll_of_denotesAll hh hk
  obtain ⟨a, a', rfl⟩ := List.length_eq_two.1 hh.length_eq
  obtain ⟨b, b', rfl⟩ := List.length_eq_two.1 hk.length_eq
  obtain ⟨hab, hall⟩ := List.forall₂_cons.1 hall
  exact ⟨a, a', b, b', rfl, rfl, hab, (List.forall₂_cons.1 hall).1⟩

theorem exists_denotesAll_of_correspondAll (hhk : CorrespondAll hs ks A B) :
    ∃ es, DenotesAll es hs A ∧ DenotesAll es ks B := by
  induction hhk with
  | nil => exact ⟨[], denotesAll_nil.2 rfl, denotesAll_nil.2 rfl⟩
  | cons hhk _ ih =>
    obtain ⟨e, hh, hk⟩ := hhk
    obtain ⟨es, hhs, hks⟩ := ih
    exact ⟨e :: es, denotesAll_cons hh hhs, denotesAll_cons hk hks⟩

namespace Arena.Twins

variable (hAB : A.Twins B)

include hAB

/-- A handle corresponds to at most one handle, and at most one corresponds to it. -/
theorem eq_iff (hhk : Corresponds h k A B) (hhk' : Corresponds h' k' A B) : h = h' ↔ k = k' := by
  obtain ⟨e, hh, hk⟩ := hhk
  obtain ⟨e', hh', hk'⟩ := hhk'
  constructor
  · rintro rfl
    obtain rfl := Option.some.inj (hh.symm.trans hh')
    exact hAB.right.eq_of_denotes hk hk'
  · rintro rfl
    obtain rfl := Option.some.inj (hk.symm.trans hk')
    exact hAB.left.eq_of_denotes hh hh'

theorem consistent_left : A.Consistent A.symbols := ⟨hAB.left, rfl⟩

theorem consistent_right : B.Consistent A.symbols := ⟨hAB.right, hAB.symbols.symm⟩

theorem symbolName?_eq (id : Nat) : A.symbolName? id = B.symbolName? id := by
  rw [symbolName?, symbolName?, hAB.symbols]

end Arena.Twins

/-! ### Terms -/

namespace Lowering

variable {α β : Type}

/-- Two lowerings have the same term so far, and remember corresponding handles. -/
structure Mirrors (A B : Arena) (s t : Lowering) : Prop where
  term : s.term = t.term
  placeholders : CorrespondAll s.placeholders.toList t.placeholders.toList A B
  places : ∀ h k, Corresponds h k A B → s.places[h]? = t.places[k]?

/-- From lowerings that mirror each other, the computations give the same result and leave such
lowerings. -/
def InStep (A B : Arena) (m m' : StateM Lowering α) : Prop :=
  ∀ s t, Mirrors A B s t → (m s).1 = (m' t).1 ∧ Mirrors A B (m s).2 (m' t).2

namespace InStep

theorem pure (a : α) : InStep A B (Pure.pure a) (Pure.pure a) := fun _ _ h => ⟨rfl, h⟩

theorem bind {m m' : StateM Lowering α} {f f' : α → StateM Lowering β} (hm : InStep A B m m')
    (hf : ∀ a, InStep A B (f a) (f' a)) : InStep A B (m >>= f) (m' >>= f') := by
  intro s t hst
  obtain ⟨hresult, hstate⟩ := hm s t hst
  have h := hf (m s).1 _ _ hstate
  change (f (m s).1 (m s).2).1 = (f' (m' t).1 (m' t).2).1 ∧
    Mirrors A B (f (m s).1 (m s).2).2 (f' (m' t).1 (m' t).2).2
  rwa [← hresult]

/-- Computations that look at the state go in step if they do for states that mirror each other. -/
theorem get {f f' : Lowering → StateM Lowering α}
    (hf : ∀ s t, Mirrors A B s t → InStep A B (f s) (f' t)) :
    InStep A B (MonadState.get >>= f) (MonadState.get >>= f') := fun s t hst => hf s t hst s t hst

theorem mapM {go go' : Handle → StateM Lowering Nat} (hhk : CorrespondAll hs ks A B)
    (hgo : ∀ h ∈ hs, ∀ k ∈ ks, Corresponds h k A B → InStep A B (go h) (go' k)) :
    InStep A B (hs.mapM go) (ks.mapM go') := by
  induction hhk with
  | nil => exact pure _
  | cons hhk _ ih =>
    rw [List.mapM_cons, List.mapM_cons]
    refine (hgo _ List.mem_cons_self _ List.mem_cons_self hhk).bind fun i => ?_
    exact (ih fun h hh k hk => hgo h (List.mem_cons_of_mem _ hh) k (List.mem_cons_of_mem _ hk)).bind
      fun is => pure _

theorem push (c : Cell) : InStep A B (push c) (push c) := by
  intro s t hst
  have hterm := hst.term
  refine ⟨congrArg (fun term => (term.push c).1) hterm, ?_, hst.placeholders, hst.places⟩
  exact congrArg (fun term => (term.push c).2) hterm

theorem pushPlaceholder (hhk : Corresponds h k A B) :
    InStep A B (pushPlaceholder h) (pushPlaceholder k) := by
  refine bind (fun s t hst => ⟨?_, hst.term, ?_, hst.places⟩) fun i => push _
  · change s.placeholders.size = t.placeholders.size
    simpa using hst.placeholders.length_eq
  · change CorrespondAll (s.placeholders.push h).toList (t.placeholders.push k).toList A B
    rw [Array.toList_push, Array.toList_push]
    exact List.rel_append hst.placeholders (.cons hhk .nil)

theorem remember (hAB : A.Twins B) (hhk : Corresponds h k A B) (i : Nat) :
    InStep A B (remember h i) (remember k i) := by
  refine fun s t hst => ⟨rfl, hst.term, hst.placeholders, fun h' k' hhk' => ?_⟩
  change (s.places.insert h i)[h']? = (t.places.insert k i)[k']?
  rw [Std.HashMap.getElem?_insert, Std.HashMap.getElem?_insert, hst.places h' k' hhk']
  -- the new entry is found by a handle exactly if it is found by the corresponding one
  have hiff := hAB.eq_iff hhk hhk'
  by_cases hh : h = h'
  · simp [hh, hiff.1 hh]
  · have hk : k ≠ k' := fun hk => hh (hiff.2 hk)
    simp [hh, hk]

theorem pushChain (o : Operator) (is : List Nat) : InStep A B (pushChain o is) (pushChain o is) := by
  cases is with
  | nil => exact push _
  | cons i is =>
    unfold Lowering.pushChain
    dsimp only
    induction is generalizing i with
    | nil => exact pure _
    | cons j js ih =>
      rw [List.foldlM_cons]
      exact (push _).bind ih

end InStep

theorem nodeOf_eq_constant {e : Expression} {hs : List Handle} {c : Constant} :
    Arena.nodeOf e hs = .constant c ↔ e = .constant c := by
  unfold Arena.nodeOf
  split
  case h_15 => simp_all
  all_goals simp

theorem isE_iff (hA : A.WellFormed) {e : Expression} (hh : Denotes e h A) :
    isE A h = true ↔ e = .constant .e := by
  obtain ⟨n, hn, hnode, -⟩ := hA.exists_node?_of_denotes hh
  rw [isE, hn, beq_iff_eq, Option.some.injEq, ← hnode, nodeOf_eq_constant]

theorem isE_eq (hAB : A.Twins B) (hhk : Corresponds h k A B) : isE A h = isE B k := by
  obtain ⟨e, hh, hk⟩ := hhk
  rw [Bool.eq_iff_iff, isE_iff hAB.left hh, isE_iff hAB.right hk]

namespace InStep

variable {go go' : Handle → StateM Lowering Nat}

theorem pushFunction (hhk : Corresponds h k A B) (code : Nat) (hargs : CorrespondAll hs ks A B)
    (hgo : ∀ h ∈ hs, ∀ k ∈ ks, Corresponds h k A B → InStep A B (go h) (go' k)) :
    InStep A B (pushFunction go h code hs) (pushFunction go' k code ks) := by
  unfold Lowering.pushFunction
  cases hargs with
  | nil => exact pushPlaceholder hhk
  | @cons a b as bs hab hrest =>
    refine (hgo a List.mem_cons_self b List.mem_cons_self hab).bind fun i => ?_
    -- only the root function looks at a second argument
    rcases Builtin.ofCode? code with - | f
    · exact pushPlaceholder hhk
    cases hrest with
    | nil => cases f <;> first | exact pushPlaceholder hhk | exact push _
    | cons hcd _ =>
      cases f
      case root => exact (hgo _ (by simp) _ (by simp) hcd).bind fun j => push _
      all_goals exact push _

/-- The nodes of corresponding handles are lowered in step if their operands are. -/
theorem pushNode (hAB : A.Twins B) {e : Expression} (hh : Denotes e h A) (hk : Denotes e k B)
    (hhs : DenotesAll e.operands hs A) (hks : DenotesAll e.operands ks B)
    (hgo : ∀ h ∈ hs, ∀ k ∈ ks, Corresponds h k A B → InStep A B (go h) (go' k)) :
    InStep A B (pushNode A go h (Arena.nodeOf e hs)) (pushNode B go' k (Arena.nodeOf e ks)) := by
  have hhk : Corresponds h k A B := ⟨e, hh, hk⟩
  have hall := correspondAll_of_denotesAll hhs hks
  cases e with
  | integer n | constant c => exact push _
  | symbol id =>
    unfold Arena.nodeOf Lowering.pushNode
    dsimp only
    rw [← hAB.symbolName?_eq id]
    split
    · exact push _
    · exact pushPlaceholder hhk
  | sum | product => exact (mapM hall hgo).bind fun is => pushChain _ is
  | apply code args => exact pushFunction hhk code hall hgo
  | fraction | float | undefined | unreal | matrix => exact pushPlaceholder hhk
  | opposite x =>
    obtain ⟨a, b, rfl, rfl, hab⟩ := exists_of_denotesAll_one hhs hks
    exact (hgo a (by simp) b (by simp) hab).bind fun i => push _
  | call name x =>
    obtain ⟨a, b, rfl, rfl, -⟩ := exists_of_denotesAll_one hhs hks
    exact pushPlaceholder hhk
  | power x y =>
    obtain ⟨a, a', b, b', rfl, rfl, hab, hab'⟩ := exists_of_denotesAll_two hhs hks
    have hexponent := hgo a' (by simp) b' (by simp) hab'
    unfold Arena.nodeOf Lowering.pushNode
    dsimp only
    -- a power of Euler's number is lowered as `exp`
    rw [← isE_eq hAB hab]
    split
    · exact hexponent.bind fun i => push _
    · exact (hgo a (by simp) b (by simp) hab).bind fun i => hexponent.bind fun j => push _
  | quotient x y =>
    obtain ⟨a, a', b, b', rfl, rfl, hab, hab'⟩ := exists_of_denotesAll_two hhs hks
    exact (hgo a (by simp) b (by simp) hab).bind fun i =>
      (hgo a' (by simp) b' (by simp) hab').bind fun j => push _

/-- Corresponding handles are lowered in step.  The operands of a node were stored before it, so
neither lowering reaches its bound. -/
theorem pushExpression (hAB : A.Twins B) {depth depth' : Nat} (hhk : Corresponds h k A B)
    (hdepth : h.index < depth) (hdepth' : k.index < depth') :
    InStep A B (pushExpression A depth h) (pushExpression B depth' k) := by
  induction depth generalizing h k depth' with
  | zero => exact absurd hdepth (Nat.not_lt_zero _)
  | succ depth ih =>
    obtain ⟨depth', rfl⟩ := Nat.exists_eq_add_one_of_ne_zero (Nat.ne_zero_of_lt hdepth')
    obtain ⟨e, hh, hk⟩ := hhk
    have hhk : Corresponds h k A B := ⟨e, hh, hk⟩
    obtain ⟨n, hn, hnode, hhs⟩ := hAB.left.exists_node?_of_denotes hh
    obtain ⟨m, hm, hnode', hks⟩ := hAB.right.exists_node?_of_denotes hk
    have hoperands : ∀ c ∈ n.children, ∀ d ∈ m.children, Corresponds c d A B →
        InStep A B (pushExpression A depth c) (pushExpression B depth' d) := by
      intro c hc d hd hcd
      have hch := hAB.left.operand_lt h n hn c hc
      have hdk := hAB.right.operand_lt k m hm d hd
      exact ih hcd (by omega) (by omega)
    have hpush := pushNode hAB hh hk hhs hks hoperands
    rw [hnode, hnode'] at hpush
    refine get fun s t hst => ?_
    rw [hst.places h k hhk, hn, hm]
    split
    · exact pure _
    · exact hpush.bind fun i => remember hAB hhk i

end InStep

end Lowering

/-- Corresponding handles have the same term, with corresponding placeholders. -/
theorem Arena.Twins.term (hAB : A.Twins B) (hhk : Corresponds h k A B) :
    (A.term h).1 = (B.term k).1 ∧ CorrespondAll (A.term h).2 (B.term k).2 A B := by
  have ⟨e, hh, hk⟩ := hhk
  have hdepth : h.index < A.nodes.size := contains_iff.1 (contains_of_read? hh)
  have hdepth' : k.index < B.nodes.size := contains_iff.1 (contains_of_read? hk)
  have hempty : Lowering.Mirrors A B {} {} := ⟨rfl, .nil, fun _ _ _ => by simp⟩
  obtain ⟨-, hterm, hplaceholders, -⟩ :=
    Lowering.InStep.pushExpression hAB hhk hdepth hdepth' {} {} hempty
  exact ⟨hterm, hplaceholders⟩

end Resolvent

/-! ## Storing the same things in two arenas -/

namespace Resolvent

variable {ε ε' α β γ δ : Type} {A B : Arena}

/-- Outcomes of two runs from twins, whose results are related. -/
inductive Agreement (full : ε → Prop) (A B : Arena) (R : α → β → Arena → Arena → Prop) :
    Except ε α × Arena → Except ε β × Arena → Prop where
  | leftFull {e : ε} {A' : Arena} {y : Except ε β × Arena} (he : full e) :
    Agreement full A B R (.error e, A') y
  | rightFull {e : ε} {B' : Arena} {x : Except ε α × Arena} (he : full e) :
    Agreement full A B R x (.error e, B')
  | fails {e : ε} {A' B' : Arena} (hA : A.GrowsTo A') (hB : B.GrowsTo B') (hAB : A'.Twins B') :
    Agreement full A B R (.error e, A') (.error e, B')
  | gives {a : α} {b : β} {A' B' : Arena} (hA : A.GrowsTo A') (hB : B.GrowsTo B')
    (hAB : A'.Twins B') (hab : R a b A' B') : Agreement full A B R (.ok a, A') (.ok b, B')

/-- Run in twins, the computations agree, unless one of them stops because its arena is full. -/
def Agree (full : ε → Prop) (m : BuildT ε α) (m' : BuildT ε β) (A B : Arena)
    (R : α → β → Arena → Arena → Prop) : Prop := Agreement full A B R (m A) (m' B)

namespace Agree

variable {full : ε → Prop} {R : α → β → Arena → Arena → Prop} {S : γ → δ → Arena → Arena → Prop}

theorem pure {a : α} {b : β} (hAB : A.Twins B) (hab : R a b A B) :
    Agree full (Pure.pure a) (Pure.pure b) A B R := .gives (.refl A) (.refl B) hAB hab

theorem throw (hAB : A.Twins B) (e : ε) :
    Agree full (MonadExcept.throw e : BuildT ε α) (MonadExcept.throw e) A B R :=
  .fails (.refl A) (.refl B) hAB

theorem bind {m : BuildT ε α} {m' : BuildT ε β} {f : α → BuildT ε γ} {f' : β → BuildT ε δ}
    (hm : Agree full m m' A B R)
    (hf : ∀ a b A' B', A.GrowsTo A' → B.GrowsTo B' → A'.Twins B' → R a b A' B' →
      Agree full (f a) (f' b) A' B' S) : Agree full (m >>= f) (m' >>= f') A B S := by
  unfold Agree at hm ⊢
  rw [bind_run, bind_run]
  rcases hx : m A with ⟨_ | a, A'⟩ <;> rcases hy : m' B with ⟨_ | b, B'⟩ <;> rw [hx, hy] at hm
  · cases hm with
    | leftFull he => exact .leftFull he
    | rightFull he => exact .rightFull he
    | fails hA hB hAB => exact .fails hA hB hAB
  · cases hm with | leftFull he => exact .leftFull he
  · cases hm with | rightFull he => exact .rightFull he
  · cases hm with
    | gives hA hB hAB hab =>
      -- the second computations agree, and what they start from has grown already
      have h := hf a b A' B' hA hB hAB hab
      unfold Agree at h
      dsimp only
      rcases hx' : f a A' with ⟨x, C⟩
      rcases hy' : f' b B' with ⟨y, D⟩
      rw [hx', hy'] at h
      cases h with
      | leftFull he => exact .leftFull he
      | rightFull he => exact .rightFull he
      | fails hA' hB' hCD => exact .fails (hA.trans hA') (hB.trans hB') hCD
      | gives hA' hB' hCD h => exact .gives (hA.trans hA') (hB.trans hB') hCD h

/-- Computations that look at their arena agree if they do once they have seen it. -/
theorem get {f : Arena → BuildT ε α} {f' : Arena → BuildT ε β}
    (h : Agree full (f A) (f' B) A B R) :
    Agree full (getThe Arena >>= f) (getThe Arena >>= f') A B R := by
  unfold Agree
  rwa [bind_run, bind_run]

theorem adapt {full' : ε' → Prop} {m : BuildT ε α} {m' : BuildT ε β} {f : ε → ε'}
    (hm : Agree full m m' A B R) (hf : ∀ e, full e → full' (f e)) :
    Agree full' (ExceptT.adapt f m) (ExceptT.adapt f m') A B R := by
  unfold Agree at hm ⊢
  change Agreement full' A B R ((m A).1.mapError f, (m A).2) ((m' B).1.mapError f, (m' B).2)
  rcases hx : m A with ⟨x, A'⟩
  rcases hy : m' B with ⟨y, B'⟩
  rw [hx, hy] at hm
  cases hm with
  | leftFull he => exact .leftFull (hf _ he)
  | rightFull he => exact .rightFull (hf _ he)
  | fails hA hB hAB => exact .fails hA hB hAB
  | gives hA hB hAB hab => exact .gives hA hB hAB hab

/-- Members of lists that are related one by one are put into the state of a loop in step. -/
theorem foldlM {f : β → α → BuildT ε β} {f' : δ → α → BuildT ε δ}
    {S : β → δ → Arena → Arena → Prop} (as : List α) {b : β} {d : δ} (hAB : A.Twins B)
    (hbd : S b d A B)
    (hf : ∀ b d a A' B', A.GrowsTo A' → B.GrowsTo B' → A'.Twins B' → S b d A' B' →
      Agree full (f b a) (f' d a) A' B' S) :
    Agree full (as.foldlM f b) (as.foldlM f' d) A B S := by
  induction as generalizing A B b d with
  | nil => exact pure hAB hbd
  | cons a as ih =>
    rw [List.foldlM_cons, List.foldlM_cons]
    refine (hf b d a A B (.refl A) (.refl B) hAB hbd).bind fun c e A' B' hA hB hAB' hce => ?_
    refine ih hAB' hce fun b d a C D hC hD => ?_
    exact hf b d a C D (hA.trans hC) (hB.trans hD)

end Agree

/-! ### Storing nodes -/

namespace Build

variable {a b a' b' : Handle} {hs ks : List Handle}

/-- Two computations that store nodes agree, unless one of the arenas is full. -/
abbrev Agree (m m' : Build Handle) (A B : Arena) : Prop :=
  Resolvent.Agree (fun _ => True) m m' A B Corresponds

/-- Computations that store the same expression agree. -/
theorem agree_of_stores {m m' : Build Handle} {e : Expression}
    (hm : Stores A.symbols m A e) (hm' : Stores A.symbols m' B e) : Agree m m' A B := by
  obtain ⟨hA, hkeepsA, hresultA⟩ := hm
  obtain ⟨hB, hkeepsB, hresultB⟩ := hm'
  unfold Agree Resolvent.Agree
  rcases hx : m A with ⟨_ | h, A'⟩ <;> rw [hx] at hA hkeepsA hresultA
  · exact .leftFull trivial
  rcases hy : m' B with ⟨_ | k, B'⟩ <;> rw [hy] at hB hkeepsB hresultB
  · exact .rightFull trivial
  have htwins : A'.Twins B' :=
    ⟨hkeepsA.wellFormed, hkeepsB.wellFormed, hkeepsA.symbols.trans hkeepsB.symbols.symm⟩
  exact .gives hA hB htwins ⟨e, hresultA h rfl, hresultB k rfl⟩

/-- A node without operands and names is stored alike. -/
theorem intern_agree_of_plain (hAB : A.Twins B) {n : Node} (hchildren : n.children = [])
    (hname : n.name? = none) {e : Expression}
    (he : ∀ read, Arena.assemble? read n = some e) : Agree (intern n) (intern n) A B :=
  agree_of_stores (intern_stores_of_plain hAB.consistent_left hchildren hname (he _))
    (intern_stores_of_plain hAB.consistent_right hchildren hname (he _))

theorem integer_agree (hAB : A.Twins B) (n : Int) : Agree (integer n) (integer n) A B :=
  intern_agree_of_plain hAB rfl rfl fun _ => rfl

theorem rational_agree (hAB : A.Twins B) (q : Rat) : Agree (rational q) (rational q) A B := by
  unfold rational
  split
  · exact integer_agree hAB _
  · exact intern_agree_of_plain hAB rfl rfl fun _ => rfl

theorem sum_agree (hAB : A.Twins B) (h : CorrespondAll hs ks A B) :
    Agree (sum hs) (sum ks) A B := by
  obtain ⟨es, hhs, hks⟩ := exists_denotesAll_of_correspondAll h
  exact agree_of_stores (sum_stores hAB.consistent_left hhs)
    (sum_stores hAB.consistent_right hks)

theorem product_agree (hAB : A.Twins B) (h : CorrespondAll hs ks A B) :
    Agree (product hs) (product ks) A B := by
  obtain ⟨es, hhs, hks⟩ := exists_denotesAll_of_correspondAll h
  exact agree_of_stores (product_stores hAB.consistent_left hhs)
    (product_stores hAB.consistent_right hks)

theorem applyCode_agree (hAB : A.Twins B) (code : Nat) (h : CorrespondAll hs ks A B) :
    Agree (applyCode code hs) (applyCode code ks) A B := by
  obtain ⟨es, hhs, hks⟩ := exists_denotesAll_of_correspondAll h
  exact agree_of_stores (applyCode_stores hAB.consistent_left code hhs)
    (applyCode_stores hAB.consistent_right code hks)

theorem matrix_agree (hAB : A.Twins B) (rows columns : Nat) (h : CorrespondAll hs ks A B) :
    Agree (matrix rows columns hs) (matrix rows columns ks) A B := by
  obtain ⟨es, hhs, hks⟩ := exists_denotesAll_of_correspondAll h
  exact agree_of_stores (matrix_stores hAB.consistent_left rows columns hhs)
    (matrix_stores hAB.consistent_right rows columns hks)

theorem opposite_agree (hAB : A.Twins B) (h : Corresponds a b A B) :
    Agree (opposite a) (opposite b) A B := by
  obtain ⟨e, ha, hb⟩ := h
  exact agree_of_stores (opposite_stores hAB.consistent_left ha)
    (opposite_stores hAB.consistent_right hb)

theorem power_agree (hAB : A.Twins B) (h : Corresponds a b A B) (h' : Corresponds a' b' A B) :
    Agree (power a a') (power b b') A B := by
  obtain ⟨e, ha, hb⟩ := h
  obtain ⟨e', ha', hb'⟩ := h'
  exact agree_of_stores (power_stores hAB.consistent_left ha ha')
    (power_stores hAB.consistent_right hb hb')

theorem quotient_agree (hAB : A.Twins B) (h : Corresponds a b A B) (h' : Corresponds a' b' A B) :
    Agree (quotient a a') (quotient b b') A B := by
  obtain ⟨e, ha, hb⟩ := h
  obtain ⟨e', ha', hb'⟩ := h'
  exact agree_of_stores (quotient_stores hAB.consistent_left ha ha')
    (quotient_stores hAB.consistent_right hb hb')

theorem difference_agree (hAB : A.Twins B) (h : Corresponds a b A B) (h' : Corresponds a' b' A B) :
    Agree (difference a a') (difference b b') A B :=
  (opposite_agree hAB h').bind fun _ _ _ _ hA hB hAB' hnegated =>
    sum_agree hAB' (.cons (h.grow hA hB) (.cons hnegated .nil))

/-- Names that are new get the same number in both arenas. -/
theorem internSymbol_agree (hAB : A.Twins B) (name : String) :
    Resolvent.Agree (fun _ => True) (internSymbol name) (internSymbol name) A B
      fun id id' A' _ => id = id' ∧ A'.Named id := by
  have hsymbols : A.symbols.intern name = B.symbols.intern name := by rw [hAB.symbols]
  refine .gives (.internSymbol A name) (.internSymbol B name) ⟨?_, ?_, ?_⟩ ⟨?_, ?_⟩
  · exact hAB.left.internSymbol name
  · exact hAB.right.internSymbol name
  · exact congrArg Prod.snd hsymbols
  · exact congrArg Prod.fst hsymbols
  · exact A.named_intern name

theorem symbol_agree (hAB : A.Twins B) (name : String) : Agree (symbol name) (symbol name) A B := by
  refine (internSymbol_agree hAB name).bind fun id id' A' B' _ _ hAB' hid => ?_
  obtain ⟨rfl, hid⟩ := hid
  exact agree_of_stores (symbol_stores hAB'.consistent_left hid)
    (symbol_stores hAB'.consistent_right hid)

theorem call_agree (hAB : A.Twins B) (name : String) (h : Corresponds a b A B) :
    Agree (call name a) (call name b) A B := by
  refine (internSymbol_agree hAB name).bind fun id id' A' B' hA hB hAB' hid => ?_
  obtain ⟨rfl, hid⟩ := hid
  obtain ⟨e, ha, hb⟩ := h.grow hA hB
  exact agree_of_stores (call_stores hAB'.consistent_left hid ha)
    (call_stores hAB'.consistent_right hid hb)

end Build

/-! ### Storing terms -/

namespace Head

open Build

variable {placeholders placeholders' : List Handle} {operands operands' : List (Head × Handle)}

/-- Two computations that store terms agree, unless one of the arenas is full. -/
abbrev Agree (m m' : BuildT ImportError Handle) (A B : Arena) : Prop :=
  Resolvent.Agree (fun e => ∃ full, e = .exhausted full) m m' A B Corresponds

/-- The operands have the same heads, and their handles correspond. -/
abbrev CorrespondBelow (operands operands' : List (Head × Handle)) (A B : Arena) : Prop :=
  List.Forall₂ (fun x y => x.1 = y.1 ∧ Corresponds x.2 y.2 A B) operands operands'

theorem rel_getElem? {R : α → β → Prop} {as : List α} {bs : List β} (h : List.Forall₂ R as bs)
    (i : Nat) : Option.Rel R as[i]? bs[i]? := by
  induction h generalizing i with
  | nil => exact .none
  | cons hab _ ih =>
    cases i with
    | zero => exact .some hab
    | succ i => exact ih i

theorem lift_agree {m m' : Build Handle} (hm : Build.Agree m m' A B) :
    Agree (Build.lift .exhausted m) (Build.lift .exhausted m') A B :=
  hm.adapt fun full _ => ⟨full, rfl⟩

theorem buildSymbol_agree (hAB : A.Twins B) (h : CorrespondAll placeholders placeholders' A B)
    (name : String) : Agree (buildSymbol placeholders name) (buildSymbol placeholders' name) A B := by
  unfold buildSymbol
  split
  · next digits _ =>
    rcases placeholder? digits with - | k
    · exact .throw hAB _
    rw [Option.bind_some, Option.bind_some]
    have hk := rel_getElem? h k
    rcases hx : placeholders[k]? with - | x <;> rcases hy : placeholders'[k]? with - | y <;>
      rw [hx, hy] at hk <;> cases hk
    · exact .throw hAB _
    · next hxy => exact .pure hAB hxy
  · repeat' split
    all_goals
      first
        | exact .throw hAB _
        | exact lift_agree (intern_agree_of_plain hAB rfl rfl fun _ => rfl)
        | exact lift_agree (rational_agree hAB _)
        | exact lift_agree (symbol_agree hAB _)

/-- A function other than `exp` is applied to whatever arguments there are. -/
theorem buildOperator_apply {f : Builtin} (hf : f ≠ .exp) (operands : List (Head × Handle)) :
    buildOperator (.apply f) operands = Build.lift .exhausted (apply f (operands.map Prod.snd)) := by
  cases f <;> first | rfl | exact absurd rfl hf

theorem buildOperator_matrix (operands : List (Head × Handle)) :
    buildOperator .matrix operands =
      if operands.length ≤ 255 then
        Build.lift .exhausted (matrix 1 operands.length (operands.map Prod.snd))
      else throw .matrixTooLarge := rfl

theorem buildOperator_call (name : String) (x : Handle) (y : Head × Handle) :
    buildOperator .call [(.symbol name, x), y] =
      if isName name then Build.lift .exhausted (call name y.2) else throw (.invalidName name) := rfl

theorem CorrespondBelow.handles (h : CorrespondBelow operands operands' A B) :
    CorrespondAll (operands.map Prod.snd) (operands'.map Prod.snd) A B :=
  List.forall₂_map_left_iff.2 (List.forall₂_map_right_iff.2 (h.imp fun _ _ h => h.2))

theorem buildApply_agree (hAB : A.Twins B) (f : Builtin)
    (h : CorrespondBelow operands operands' A B) :
    Agree (buildOperator (.apply f) operands) (buildOperator (.apply f) operands') A B := by
  have happly := lift_agree (applyCode_agree hAB f.code h.handles)
  by_cases hf : f = .exp
  · subst hf
    rcases h with _ | ⟨hab, _ | ⟨_, _⟩⟩
    · exact happly
    · -- `exp` of one operand is stored as a power of Euler's number
      refine lift_agree (Agree.bind (intern_agree_of_plain hAB rfl rfl fun _ => rfl) ?_)
      intro e e' A' B' hA hB hAB' he
      exact power_agree hAB' he (hab.2.grow hA hB)
    · exact happly
  · rw [buildOperator_apply hf, buildOperator_apply hf]
    exact happly

theorem buildCall_agree (hAB : A.Twins B) (h : CorrespondBelow operands operands' A B) :
    Agree (buildOperator .call operands) (buildOperator .call operands') A B := by
  rcases h with _ | ⟨hab, _ | ⟨hcd, _ | ⟨_, _⟩⟩⟩ <;> try exact .throw hAB _
  next x y z w =>
    obtain ⟨head, x⟩ := x
    obtain ⟨_, y⟩ := y
    obtain ⟨rfl, -⟩ := hab
    cases head with
    | symbol name =>
      rw [buildOperator_call, buildOperator_call]
      split
      · exact lift_agree (call_agree hAB name hcd.2)
      · exact .throw hAB _
    | _ => exact .throw hAB _

theorem buildMatrix_agree (hAB : A.Twins B) (h : CorrespondBelow operands operands' A B) :
    Agree (buildOperator .matrix operands) (buildOperator .matrix operands') A B := by
  rw [buildOperator_matrix, buildOperator_matrix, h.length_eq]
  split
  · exact lift_agree (matrix_agree hAB _ _ h.handles)
  · exact .throw hAB _

/-- Operators are stored alike, or both have operands that they do not take. -/
theorem buildOperator_agree (hAB : A.Twins B) (o : Operator)
    (h : CorrespondBelow operands operands' A B) :
    Agree (buildOperator o operands) (buildOperator o operands') A B := by
  have hall := h.handles
  cases o
  case apply f => exact buildApply_agree hAB f h
  case call => exact buildCall_agree hAB h
  case matrix => exact buildMatrix_agree hAB h
  case neg =>
    rcases h with _ | ⟨hab, _ | ⟨_, _⟩⟩ <;> try exact .throw hAB _
    exact lift_agree (opposite_agree hAB hab.2)
  all_goals rcases h with _ | ⟨hab, _ | ⟨hcd, _ | ⟨_, _⟩⟩⟩ <;> try exact .throw hAB _
  · exact lift_agree (sum_agree hAB hall)
  · exact lift_agree (difference_agree hAB hab.2 hcd.2)
  · exact lift_agree (product_agree hAB hall)
  · exact lift_agree (quotient_agree hAB hab.2 hcd.2)
  · exact lift_agree (power_agree hAB hab.2 hcd.2)

theorem build_agree (hAB : A.Twins B) (hplaceholders : CorrespondAll placeholders placeholders' A B)
    (hoperands : CorrespondBelow operands operands' A B) (h : Head) :
    Agree (h.build placeholders operands) (h.build placeholders' operands') A B := by
  cases h with
  | number n => exact lift_agree (integer_agree hAB n)
  | symbol name => exact buildSymbol_agree hAB hplaceholders name
  | op o => exact buildOperator_agree hAB o hoperands

theorem CorrespondBelow.grow {A' B' : Arena} (h : CorrespondBelow operands operands' A B)
    (hA : A.GrowsTo A') (hB : B.GrowsTo B') : CorrespondBelow operands operands' A' B' :=
  h.imp fun _ _ h => ⟨h.1, h.2.grow hA hB⟩

end Head

/-- Storing a term over corresponding placeholders agrees in twins. -/
theorem Term.build_agree (hAB : A.Twins B) {placeholders placeholders' : List Handle}
    (h : CorrespondAll placeholders placeholders' A B) (t : Term) :
    Head.Agree (t.build placeholders) (t.build placeholders') A B := by
  unfold Term.build
  rw [← Array.foldlM_toList, ← Array.foldlM_toList]
  refine Agree.bind (R := fun built built' A B => Head.CorrespondBelow built.toList built'.toList A B)
    (Agree.foldlM _ hAB .nil fun built built' c A' B' hA hB hAB' hbuilt => ?_) ?_
  · -- the operands of a cell are among those that were built before
    have hoperands : Head.CorrespondBelow (c.operands.filterMap fun i => built[i]?)
        (c.operands.filterMap fun i => built'[i]?) A' B' := by
      refine List.rel_filterMap (R := Eq) (fun i j hij => ?_) (List.forall₂_refl _)
      obtain rfl := hij
      have hi := Head.rel_getElem? hbuilt i
      rwa [Array.getElem?_toList, Array.getElem?_toList] at hi
    refine (Head.build_agree hAB' (h.grow hA hB) hoperands c.head).bind
      fun x y C D hC hD hCD hxy => .pure hCD ?_
    rw [Array.toList_push, Array.toList_push]
    exact List.rel_append (hbuilt.grow hC hD) (.cons ⟨rfl, hxy⟩ .nil)
  · intro built built' A' B' hA hB hAB' hbuilt
    have hsize : built.size = built'.size := by simpa using hbuilt.length_eq
    have hback := Head.rel_getElem? hbuilt (built.size - 1)
    rw [Array.getElem?_toList, Array.getElem?_toList, ← Array.back?_eq_getElem?, hsize,
      ← Array.back?_eq_getElem?] at hback
    rcases hx : built.back? with - | x <;> rcases hy : built'.back? with - | y <;>
      rw [hx, hy] at hback <;> cases hback
    · exact .throw hAB' _
    · next hxy => exact .pure hAB' hxy.2

end Resolvent

import Resolvent.Form.Canonical
import Resolvent.Proofs.Term.Agreement

/-!
# Canonical forms and what they depend on

The canonical form of a stored expression depends on what it unfolds to and on nothing else, as
long as the arena is not full (`Build.canonical_agree`).  What cannot be unfolded has no canonical
form, and the error reports the obstacle (`Build.canonical_of_obstacle`).

The canonical form is that of what the identities make of the expanded expression
(`Build.canonical_run`), which is the expanded expression itself where no function occurs in it
(`Build.canonical_of_plain`).
-/

namespace Resolvent

variable {A B : Arena} {h k : Handle}

namespace Build

/-- Two computations with canonical errors agree, unless one of the arenas is full. -/
abbrev AgreeOn {α β : Type} (m : BuildT CanonicalError α) (m' : BuildT CanonicalError β)
    (A B : Arena) (R : α → β → Arena → Arena → Prop) : Prop :=
  Resolvent.Agree (fun e => ∃ full, e = .exhausted full) m m' A B R

/-! ### Identities -/

theorem replaceBy_agree (hAB : A.Twins B) (hhk : Corresponds h k A B)
    {placeholders placeholders' : List Handle}
    (hplaceholders : CorrespondAll placeholders placeholders' A B) (t : Term) :
    Build.Agree (replaceBy h placeholders t) (replaceBy k placeholders' t) A B := by
  have hbuild : Agreement _ A B _ (t.build placeholders A) (t.build placeholders' B) :=
    t.build_agree hAB hplaceholders
  unfold Agree Resolvent.Agree replaceBy
  rcases hx : t.build placeholders A with ⟨x, A'⟩
  rcases hy : t.build placeholders' B with ⟨y, B'⟩
  rw [hx, hy] at hbuild
  cases hbuild with
  | leftFull he =>
    obtain ⟨full, rfl⟩ := he
    exact .leftFull trivial
  | rightFull he =>
    obtain ⟨full, rfl⟩ := he
    exact .rightFull trivial
  | @fails e _ _ hA hB hAB' =>
    cases e with
    | exhausted full => exact .leftFull trivial
    | _ => exact .gives hA hB hAB' (hhk.grow hA hB)
  | gives hA hB hAB' hab => exact .gives hA hB hAB' hab

theorem simplifyFunctions_agree (simplify : Term → Term) (hAB : A.Twins B)
    (hhk : Corresponds h k A B) :
    Build.Agree (simplifyFunctions simplify h) (simplifyFunctions simplify k) A B := by
  obtain ⟨hterm, hplaceholders⟩ := hAB.term hhk
  refine Agree.get ?_
  rw [hhk.expression_eq]
  split
  · dsimp only
    rw [hterm]
    split
    · exact .pure hAB hhk
    · exact replaceBy_agree hAB hhk hplaceholders _
  · exact .pure hAB hhk

/-! ### Canonical forms -/

section Canonical

variable {Δ : Definitions} {mode : Mode} {e e' : Expression}

/-- Expanding an expression stores what it unfolds to or fails with the error that reports the
obstacle, unless the arena is full. -/
theorem expand_spec (hA : A.WellFormed) (hΔ : Δ.IdentifiersIn A.Named) (mode : Mode)
    (he : e.IdentifiersIn A.Named) :
    A.GrowsTo (expand Δ mode e A).2 ∧ (expand Δ mode e A).2.Consistent A.symbols ∧
      ((∃ full, (expand Δ mode e A).1 = .error (.exhausted full)) ∨
        (∃ o, e.unfold Δ mode = .error o ∧ (expand Δ mode e A).1 = .error o.error) ∨
        ∃ t r, e.unfold Δ mode = .ok t ∧ (expand Δ mode e A).1 = .ok r ∧
          Denotes t r.1 (expand Δ mode e A).2) := by
  obtain ⟨⟨hgrows, hkeeps, hresult⟩, hfails⟩ :=
    Expression.expand_computes mode hΔ ⟨hA, rfl⟩ he {}
  unfold expand
  rcases hrun : e.expand Δ mode (A, {}) with ⟨x | h, B, met⟩ <;>
    rw [hrun] at hgrows hkeeps hresult hfails
  · refine ⟨hgrows, hkeeps, ?_⟩
    rcases hfails x rfl with ⟨full, rfl⟩ | ⟨o, ho, rfl⟩
    · exact .inl ⟨full, rfl⟩
    · exact .inr (.inl ⟨o, ho, rfl⟩)
  · refine ⟨hgrows, hkeeps, .inr (.inr ?_)⟩
    obtain ⟨t, ht, hdenotes⟩ := hresult h rfl
    exact ⟨t, (h, met), ht, rfl, hdenotes⟩

/-- Expressions that unfold alike are expanded alike. -/
theorem expand_agree (hA : A.WellFormed) (hΔ : Δ.IdentifiersIn A.Named) (mode : Mode)
    (he : e.IdentifiersIn A.Named) (he' : e'.IdentifiersIn A.Named)
    (heq : e.unfold Δ mode = e'.unfold Δ mode) :
    AgreeOn (expand Δ mode e) (expand Δ mode e') A A
      fun r r' B B' => Corresponds r.1 r'.1 B B' := by
  obtain ⟨hB, hkeeps, h⟩ := expand_spec hA hΔ mode he
  obtain ⟨hB', hkeeps', h'⟩ := expand_spec hA hΔ mode he'
  have htwins : (expand Δ mode e A).2.Twins (expand Δ mode e' A).2 :=
    ⟨hkeeps.wellFormed, hkeeps'.wellFormed, hkeeps.symbols.trans hkeeps'.symbols.symm⟩
  unfold AgreeOn Resolvent.Agree
  rcases hx : expand Δ mode e A with ⟨x, B⟩
  rcases hy : expand Δ mode e' A with ⟨y, B'⟩
  rw [hx] at hB h htwins
  rw [hy] at hB' h' htwins
  rcases h with ⟨full, rfl⟩ | ⟨o, ho, rfl⟩ | ⟨t, r, ht, rfl, hr⟩
  · exact .leftFull ⟨full, rfl⟩
  · rcases h' with ⟨full, rfl⟩ | ⟨o', ho', rfl⟩ | ⟨t', r', ht', rfl, hr'⟩
    · exact .rightFull ⟨full, rfl⟩
    · cases ho.symm.trans (heq.trans ho')
      exact .fails hB hB' htwins
    · cases ho.symm.trans (heq.trans ht')
  · rcases h' with ⟨full, rfl⟩ | ⟨o', ho', rfl⟩ | ⟨t', r', ht', rfl, hr'⟩
    · exact .rightFull ⟨full, rfl⟩
    · cases ht.symm.trans (heq.trans ho')
    · cases ht.symm.trans (heq.trans ht')
      exact .gives hB hB' htwins ⟨t, hr, hr'⟩

variable (c : Canonizer)

/-- Stored expressions that unfold alike have the same canonical form or the same error. -/
theorem canonical_agree (hA : A.WellFormed)
    (heq : (A.expression h).unfold (c.context.definitions A) c.mode =
      (A.expression k).unfold (c.context.definitions A) c.mode) :
    AgreeOn (canonical c h) (canonical c k) A A fun r r' _ _ => r.form = r'.form := by
  refine Agree.get ?_
  have hΔ := hA.definitions c.context
  refine (expand_agree hA hΔ c.mode (hA.identifiersIn_expression h) (hA.identifiersIn_expression k)
    heq).bind fun r r' B B' _ _ hBB' hr => ?_
  refine ((simplifyFunctions_agree c.simplify hBB' hr).adapt fun full _ => ⟨full, rfl⟩).bind
    fun s s' C C' _ _ hCC' hs => Agree.get ?_
  rw [hs.expression_eq]
  rcases (C'.expression s').form c.preferences with x | f
  · exact .throw hCC' x
  · exact .pure hCC' rfl

theorem canonical_of_expand_error {x : CanonicalError}
    (hexpand : expand (c.context.definitions A) c.mode (A.expression h) A = (.error x, B)) :
    canonical c h A = (.error x, B) := by
  unfold canonical
  rw [bind_run, getThe_run]
  dsimp only
  rw [bind_run, hexpand]

/-- What cannot be unfolded has no canonical form, and the error reports the obstacle, unless the
arena is full. -/
theorem canonical_of_obstacle (hA : A.WellFormed) {o : Obstacle}
    (ho : (A.expression h).unfold (c.context.definitions A) c.mode = .error o) :
    (∃ full, (canonical c h A).1 = .error (.exhausted full)) ∨
      (canonical c h A).1 = .error o.error := by
  obtain ⟨-, -, hspec⟩ := expand_spec hA (hA.definitions c.context) c.mode
    (hA.identifiersIn_expression h)
  rcases hrun : expand (c.context.definitions A) c.mode (A.expression h) A with ⟨x, B⟩
  rw [hrun] at hspec
  rcases hspec with ⟨full, rfl⟩ | ⟨o', ho', rfl⟩ | ⟨t, r, ht, rfl, hr⟩
  · exact .inl ⟨full, by rw [canonical_of_expand_error c hrun]⟩
  · cases ho.symm.trans ho'
    exact .inr (by rw [canonical_of_expand_error c hrun])
  · cases ho.symm.trans ht

/-! ### Runs -/

theorem simplifyFunctions_eq_pure {simplify : Term → Term}
    (h : (B.expression k).isTranscendental = true → simplify (B.term k).1 = (B.term k).1) :
    simplifyFunctions simplify k B = (.ok k, B) := by
  unfold simplifyFunctions
  rw [bind_run, getThe_run]
  dsimp only
  by_cases hplain : (B.expression k).isTranscendental = true
  · rw [if_pos hplain, if_pos (h hplain)]
    rfl
  · rw [if_neg hplain]
    rfl

/-- The canonical form is that of what the identities make of the expanded expression, with the
symbols met that it mentions or that stand in arguments. -/
theorem canonical_of_simplify {r : Handle × Encounters} {s : Handle} {C : Arena}
    (hexpand : expand (c.context.definitions A) c.mode (A.expression h) A = (.ok r, B))
    (hsimplify : simplifyFunctions c.simplify r.1 B = (.ok s, C)) :
    canonical c h A = (((C.expression s).form c.preferences).map fun f =>
      ⟨f, r.2.met.filter fun s => f.mentions s || r.2.arguments.contains s⟩, C) := by
  have hlift : Build.lift CanonicalError.exhausted (simplifyFunctions c.simplify r.1) B =
      (.ok s, C) := by
    change ((simplifyFunctions c.simplify r.1 B).1.mapError _,
      (simplifyFunctions c.simplify r.1 B).2) = _
    rw [hsimplify]
    rfl
  unfold canonical
  rw [bind_run, getThe_run]
  dsimp only
  rw [bind_run, hexpand]
  dsimp only
  rw [bind_run, hlift]
  dsimp only
  rw [bind_run, getThe_run]
  dsimp only
  rcases (C.expression s).form c.preferences with x | f <;> rfl

/-- Where no function occurs in the expanded expression, the identities do not apply. -/
theorem canonical_of_plain {k : Handle} {met : Encounters}
    (hexpand : expand (c.context.definitions A) c.mode (A.expression h) A = (.ok (k, met), B))
    (hplain : (B.expression k).isTranscendental = false) {r : Except CanonicalError Canonical}
    (hform : ((B.expression k).form c.preferences).map (fun f => Canonical.mk f
      (met.met.filter fun s => f.mentions s || met.arguments.contains s)) = r) :
    canonical c h A = (r, B) := by
  have hsimplify : simplifyFunctions c.simplify k B = (.ok k, B) :=
    simplifyFunctions_eq_pure fun h => absurd (hplain.symm.trans h) Bool.false_ne_true
  rw [canonical_of_simplify c hexpand hsimplify, ← hform]

theorem canonical_run {r : Handle × Encounters} {s : Handle} {C : Arena}
    (hexpand : expand (c.context.definitions A) c.mode (A.expression h) A = (.ok r, B))
    (hsimplify : simplifyFunctions c.simplify r.1 B = (.ok s, C)) :
    (canonical c h A).1.map Canonical.form = (C.expression s).form c.preferences := by
  rw [canonical_of_simplify c hexpand hsimplify]
  rcases (C.expression s).form c.preferences with x | f <;> rfl

end Canonical

end Build

end Resolvent

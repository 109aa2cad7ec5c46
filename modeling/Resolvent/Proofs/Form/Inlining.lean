import Resolvent.Proofs.Form.Canonical
import Resolvent.Rewriting.Saturation

/-!
# Canonical forms of calls

A call of a user function has the canonical form of the body with the argument in place of the
parameter, unless the parameter captures a symbol (`Build.canonical_call`).
-/

namespace Resolvent

variable {A B : Arena} {h k : Handle}

namespace Build

/-! ### Calls -/

/-- The first handle is a call of a function, and the second its body with the argument in place of
the parameter `t`, which occurs there. -/
structure Inlines (c : Canonizer) (A : Arena) (h k : Handle) (t : Nat) (body arg : Expression) :
    Prop where
  call : ∃ f, (c.context.definitions A).function? f = some (some t, body) ∧
    A.expression h = .call f arg
  occurs : (Expression.symbol t).Within body
  replaced : A.expression k = body.replace t arg

/-- The canonical form of the expression is computed within the depth of nesting and the room of
the arena. -/
structure WithinLimits (c : Canonizer) (A : Arena) (h : Handle) : Prop where
  depth : (A.expression h).unfold (c.context.definitions A) c.mode ≠ .error .depth
  room : ∀ full, (canonical c h A).1 ≠ .error (.exhausted full)

section Calls

variable {c : Canonizer} {t : Nat} {body arg : Expression}

/-- Calling a function gives the canonical form, or the error, of its body with the argument in
place of the parameter, unless the parameter captures a symbol.  If neither the argument nor the
body can be unfolded, each side reports an obstacle of its own. -/
theorem canonical_call (hA : A.WellFormed) (hinlines : Inlines c A h k t body arg)
    (hh : WithinLimits c A h) (hk : WithinLimits c A k)
    (hcaptures : ¬body.Captures (c.context.definitions A) c.mode t) :
    (canonical c h A).1.map Canonical.form = (canonical c k A).1.map Canonical.form ∨
      ∃ o o', arg.unfold (c.context.definitions A) c.mode = .error o ∧
        (∀ a, body.unfoldIn (c.context.definitions A) c.mode [(t, a)] = .error o') ∧
        (canonical c h A).1 = .error o.error ∧ (canonical c k A).1 = .error o'.error := by
  obtain ⟨⟨f, hf, hcall⟩, ht, hreplace⟩ := hinlines
  rcases Expression.unfold_call hf ht hcaptures (hcall ▸ hh.depth) with
    heq | ⟨o, o', harg, hbody, ho, ho'⟩
  · -- Both unfold alike, so the two computations agree, and neither fills its arena.
    left
    rw [← hcall, ← hreplace] at heq
    have hagree : Agreement _ A A _ (canonical c h A) (canonical c k A) :=
      canonical_agree c hA heq
    have hroom := hh.room
    have hroom' := hk.room
    rcases hx : canonical c h A with ⟨x, B⟩
    rcases hy : canonical c k A with ⟨y, B'⟩
    rw [hx, hy] at hagree
    rw [hx] at hroom
    rw [hy] at hroom'
    cases hagree with
    | leftFull he =>
      obtain ⟨full, rfl⟩ := he
      exact absurd rfl (hroom full)
    | rightFull he =>
      obtain ⟨full, rfl⟩ := he
      exact absurd rfl (hroom' full)
    | fails => rfl
    | gives _ _ _ hform => exact congrArg Except.ok hform
  · -- The call meets the obstacle in the argument first, the body the one that it has itself.
    right
    rw [← hcall] at ho
    rw [← hreplace] at ho'
    rcases canonical_of_obstacle c hA ho with ⟨full, hfull⟩ | hcanonical
    · exact absurd hfull (hh.room full)
    rcases canonical_of_obstacle c hA ho' with ⟨full, hfull⟩ | hcanonical'
    · exact absurd hfull (hk.room full)
    exact ⟨o, o', harg, hbody, hcanonical, hcanonical'⟩

end Calls

/-! ### Calls of two functions -/

/-- The nodes of the calls `f(5)` and `p([5])`, and of what they are compared with, where the bodies
are `t + a` and `g(5) + t`. -/
def callArena : Arena := .ofNodes ["t", "a", "f", "p", "g"]
  [.symbol 0, .symbol 1, .sum [⟨0⟩, ⟨1⟩], .integer 5, .call 2 ⟨3⟩, .sum [⟨3⟩, ⟨1⟩],
    .sum [⟨3⟩, ⟨3⟩], .sum [⟨3⟩, ⟨0⟩], .call 4 ⟨3⟩, .sum [⟨8⟩, ⟨0⟩], .matrix 1 1 [⟨3⟩],
    .call 3 ⟨10⟩, .sum [⟨8⟩, ⟨10⟩]]

/-- The definitions `f(t) = t + a`, `p(t) = g(5) + t` and `a = t`. -/
def callContext : Context Handle :=
  ((({} : Context Handle).define "a" (.variable ⟨0⟩)).define "f" (.function "t" ⟨2⟩)).define "p"
    (.function "t" ⟨9⟩)

theorem wellFormed_callArena : callArena.WellFormed := .ofNodes (by decide) (by decide) (by decide)

theorem symbolId?_callArena : callArena.symbolId? "t" = some 0 :=
  Symbols.id?_of_name? (by decide) rfl

theorem value?_callContext :
    (callContext.definitions callArena).value? 1 = some (.symbol 0) := by rfl

theorem function?_callContext : (callContext.definitions callArena).function? 2 =
    some (some 0, .sum [.symbol 0, .symbol 1]) :=
  congrArg (fun parameter => some (parameter, _)) symbolId?_callArena

theorem function?_callContext' : (callContext.definitions callArena).function? 3 =
    some (some 0, .sum [.call 4 (.integer 5), .symbol 0]) :=
  congrArg (fun parameter => some (parameter, _)) symbolId?_callArena

theorem intern_callArena {n : Node} (hn : callArena.node? h = some n) :
    intern n callArena = (.ok h, callArena) := intern_of_node? wellFormed_callArena hn

theorem dependOn_callArena (s : Encounters) :
    ExpandM.dependOn ⟨3⟩ (callArena, s) = (.ok (), (callArena, s)) := rfl

section Runs

open Expression

attribute [local simp] Build.expand expand_eq expandAt_succ expandWith pure_run throw_run
  expandAllWith expandSymbol expandCall ExpandM.build bind_run Build.integer sum_pair meet_run
  dependOn_callArena function?_callContext function?_callContext' value?_callContext
  List.lookup_cons List.lookup_nil

theorem expand_callArena_functionsOnly {e : Expression}
    (he : e = .call 2 (.integer 5) ∨ e = .sum [.integer 5, .symbol 1]) :
    Build.expand (callContext.definitions callArena) .functionsOnly e callArena =
      (.ok (⟨5⟩, { met := [1] }), callArena) := by
  have h5 : intern (.integer 5) callArena = (.ok ⟨3⟩, callArena) := intern_callArena rfl
  have ha : intern (.symbol 1) callArena = (.ok ⟨1⟩, callArena) := intern_callArena rfl
  have hsum : intern (.sum [⟨3⟩, ⟨1⟩]) callArena = (.ok ⟨5⟩, callArena) := intern_callArena rfl
  rcases he with rfl | rfl <;> simp [-bind_pure_comp, h5, ha, hsum]

theorem expand_callArena_f :
    Build.expand (callContext.definitions callArena) .replaceAll (.call 2 (.integer 5)) callArena =
      (.ok (⟨6⟩, {}), callArena) := by
  have h5 : intern (.integer 5) callArena = (.ok ⟨3⟩, callArena) := intern_callArena rfl
  have hsum : intern (.sum [⟨3⟩, ⟨3⟩]) callArena = (.ok ⟨6⟩, callArena) := intern_callArena rfl
  simp [-bind_pure_comp, h5, hsum]

theorem expand_callArena_sum :
    Build.expand (callContext.definitions callArena) .replaceAll (.sum [.integer 5, .symbol 1])
      callArena = (.ok (⟨7⟩, { met := [0] }), callArena) := by
  have h5 : intern (.integer 5) callArena = (.ok ⟨3⟩, callArena) := intern_callArena rfl
  have ht : intern (.symbol 0) callArena = (.ok ⟨0⟩, callArena) := intern_callArena rfl
  have hsum : intern (.sum [⟨3⟩, ⟨0⟩]) callArena = (.ok ⟨7⟩, callArena) := intern_callArena rfl
  have hvalue : (callContext.definitions callArena).value? 0 = none := rfl
  simp [-bind_pure_comp, h5, ht, hsum, hvalue]

theorem expand_callArena_p :
    Build.expand (callContext.definitions callArena) .replaceAll
      (.call 3 (.matrix 1 1 [.integer 5])) callArena = (.error .matrix, callArena) := by
  simp [-bind_pure_comp]

theorem expand_callArena_g :
    Build.expand (callContext.definitions callArena) .replaceAll
      (.sum [.call 4 (.integer 5), .matrix 1 1 [.integer 5]]) callArena =
      (.error .undefined, callArena) := by
  have h5 : intern (.integer 5) callArena = (.ok ⟨3⟩, callArena) := intern_callArena rfl
  have hg : (callContext.definitions callArena).function? 4 = none := rfl
  simp [-bind_pure_comp, h5, hg]

end Runs

theorem WithinLimits.of_ok {c : Canonizer} {f : Form} {t : Expression}
    (ht : (A.expression h).unfold (c.context.definitions A) c.mode = .ok t)
    (hf : (canonical c h A).1.map Canonical.form = .ok f) : WithinLimits c A h := by
  constructor
  · rw [ht]
    exact nofun
  · intro full hfull
    rw [hfull] at hf
    cases hf

theorem WithinLimits.of_error {c : Canonizer} {o : Obstacle}
    (ho : (A.expression h).unfold (c.context.definitions A) c.mode = .error o) (hdepth : o ≠ .depth)
    (hx : (canonical c h A).1 = .error o.error) : WithinLimits c A h := by
  constructor
  · rw [ho]
    exact fun heq => hdepth (Except.error.inj heq)
  · intro full hfull
    rw [hfull] at hx
    cases o <;> cases hx

theorem inlines_f (mode : Mode) :
    Inlines { context := callContext, mode, simplifier := .saturation } callArena ⟨4⟩ ⟨5⟩ 0
      (.sum [.symbol 0, .symbol 1]) (.integer 5) where
  call := ⟨2, function?_callContext, rfl⟩
  occurs := .operand List.mem_cons_self .self
  replaced := by rfl

/-- While variables stay symbolic, the call `f(5)` has the form of `5 + a`. -/
theorem canonical_call_functionsOnly :
    let c : Canonizer :=
      { context := callContext, mode := .functionsOnly, simplifier := .saturation }
    let body : Expression := .sum [.symbol 0, .symbol 1]
    (callArena.WellFormed ∧ Inlines c callArena ⟨4⟩ ⟨5⟩ 0 body (.integer 5) ∧
      WithinLimits c callArena ⟨4⟩ ∧ WithinLimits c callArena ⟨5⟩ ∧
      ¬body.Captures (c.context.definitions callArena) c.mode 0) ∧
    (canonical c ⟨4⟩ callArena).1.map Canonical.form =
      (canonical c ⟨5⟩ callArena).1.map Canonical.form := by
  intro c body
  have hinlines : Inlines c callArena ⟨4⟩ ⟨5⟩ 0 body (.integer 5) := inlines_f .functionsOnly
  have hcall : (callArena.expression ⟨4⟩).unfold (c.context.definitions callArena) c.mode =
      .ok (.sum [.integer 5, .symbol 1]) :=
    (Expression.unfold_call_eq _ _ function?_callContext).trans (by rfl)
  have hsum : (callArena.expression ⟨5⟩).unfold (c.context.definitions callArena) c.mode =
      .ok (.sum [.integer 5, .symbol 1]) := by rfl
  obtain ⟨f, hf⟩ : ∃ f, (Expression.sum [.integer 5, .symbol 1]).form {} = .ok f := ⟨_, rfl⟩
  have hlimits : WithinLimits c callArena ⟨4⟩ :=
    .of_ok hcall ((canonical_run c (expand_callArena_functionsOnly (.inl rfl))
      (simplifyFunctions_eq_pure nofun)).trans hf)
  have hlimits' : WithinLimits c callArena ⟨5⟩ :=
    .of_ok hsum ((canonical_run c (expand_callArena_functionsOnly (.inr rfl))
      (simplifyFunctions_eq_pure nofun)).trans hf)
  have hcaptures : ¬body.Captures (c.context.definitions callArena) c.mode 0 := by
    simp [body, c, Expression.captures_sum_iff, Expression.captures_symbol_iff]
  refine ⟨⟨wellFormed_callArena, hinlines, hlimits, hlimits', hcaptures⟩, ?_⟩
  refine (canonical_call wellFormed_callArena hinlines hlimits hlimits' hcaptures).resolve_right ?_
  rintro ⟨o, -, ho, -⟩
  cases ho

/-- With `a = t`, the call `f(5)` captures that `t`: its form is 10, and that of `5 + a` is
`5 + t`. -/
theorem canonical_call_f_ne :
    let c : Canonizer := { context := callContext, simplifier := .saturation }
    let body : Expression := .sum [.symbol 0, .symbol 1]
    Inlines c callArena ⟨4⟩ ⟨5⟩ 0 body (.integer 5) ∧ WithinLimits c callArena ⟨4⟩ ∧
      WithinLimits c callArena ⟨5⟩ ∧ body.Captures (c.context.definitions callArena) c.mode 0 ∧
      (canonical c ⟨4⟩ callArena).1.map Canonical.form ≠
        (canonical c ⟨5⟩ callArena).1.map Canonical.form := by
  intro c body
  have hcall : (callArena.expression ⟨4⟩).unfold (c.context.definitions callArena) c.mode =
      .ok (.sum [.integer 5, .integer 5]) :=
    (Expression.unfold_call_eq _ _ function?_callContext).trans (by rfl)
  have hsum : (callArena.expression ⟨5⟩).unfold (c.context.definitions callArena) c.mode =
      .ok (.sum [.integer 5, .symbol 0]) := by rfl
  have hten : (Expression.sum [.integer 5, .integer 5]).form {} = .ok (Form.ofRat 10) := by
    decide +kernel
  obtain ⟨f, hf⟩ : ∃ f, (Expression.sum [.integer 5, .symbol 0]).form {} = .ok f := ⟨_, rfl⟩
  have hform : (canonical c ⟨4⟩ callArena).1.map Canonical.form = .ok (Form.ofRat 10) :=
    (canonical_run (h := ⟨4⟩) c expand_callArena_f (simplifyFunctions_eq_pure nofun)).trans hten
  have hform' : (canonical c ⟨5⟩ callArena).1.map Canonical.form = .ok f :=
    (canonical_run (h := ⟨5⟩) c expand_callArena_sum (simplifyFunctions_eq_pure nofun)).trans hf
  refine ⟨inlines_f .replaceAll, .of_ok hcall hform, .of_ok hsum hform', ?_, ?_⟩
  · refine Expression.captures_sum_iff.2 ⟨.symbol 1, by simp, ?_⟩
    exact .value rfl (by decide) value?_callContext (.here List.not_mem_nil)
  · rw [hform, hform', ← hf]
    decide +kernel

/-- The call `p([5])` reports the matrix, and `g(5) + [5]` reports the unknown function. -/
theorem canonical_call_p_ne :
    let c : Canonizer := { context := callContext, simplifier := .saturation }
    let body : Expression := .sum [.call 4 (.integer 5), .symbol 0]
    Inlines c callArena ⟨11⟩ ⟨12⟩ 0 body (.matrix 1 1 [.integer 5]) ∧
      WithinLimits c callArena ⟨11⟩ ∧ WithinLimits c callArena ⟨12⟩ ∧
      ¬body.Captures (c.context.definitions callArena) c.mode 0 ∧
      (canonical c ⟨11⟩ callArena).1.map Canonical.form ≠
        (canonical c ⟨12⟩ callArena).1.map Canonical.form := by
  intro c body
  have hcall : (callArena.expression ⟨11⟩).unfold (c.context.definitions callArena) c.mode =
      .error .matrix := by rfl
  have hsum : (callArena.expression ⟨12⟩).unfold (c.context.definitions callArena) c.mode =
      .error .unknownFunction := by rfl
  have hg : (callContext.definitions callArena).function? 4 = none := rfl
  have hmatrix : canonical c ⟨11⟩ callArena = (.error .matrix, callArena) :=
    canonical_of_expand_error c expand_callArena_p
  have hunknown : canonical c ⟨12⟩ callArena = (.error .undefined, callArena) :=
    canonical_of_expand_error c expand_callArena_g
  refine ⟨⟨⟨3, function?_callContext', rfl⟩, ?_, ?_⟩,
    .of_error hcall (by decide) (by rw [hmatrix]; rfl),
    .of_error hsum (by decide) (by rw [hunknown]; rfl), ?_, ?_⟩
  · exact .operand (List.mem_cons_of_mem _ List.mem_cons_self) .self
  · rfl
  · simp only [body, c, Expression.captures_sum_iff, Expression.captures_symbol_iff,
      Expression.captures_call_iff, hg, List.mem_cons, List.not_mem_nil, or_false,
      exists_eq_or_imp, exists_eq_left, reduceCtorEq, false_and, exists_false, false_or, ne_eq,
      not_true_eq_false, and_false]
    rintro (_ | _ | ⟨hc, -⟩)
    cases hc
  · rw [hmatrix, hunknown]
    exact nofun

/-- Inlining is not substitution where the parameter captures a symbol, nor where neither the
argument nor the body can be unfolded. -/
theorem exists_canonical_call_ne : ∃ c : Canonizer, callArena.WellFormed ∧
    (∃ h k t body arg, Inlines c callArena h k t body arg ∧ WithinLimits c callArena h ∧
      WithinLimits c callArena k ∧ body.Captures (c.context.definitions callArena) c.mode t ∧
      (canonical c h callArena).1.map Canonical.form ≠
        (canonical c k callArena).1.map Canonical.form) ∧
    ∃ h k t body arg, Inlines c callArena h k t body arg ∧ WithinLimits c callArena h ∧
      WithinLimits c callArena k ∧ ¬body.Captures (c.context.definitions callArena) c.mode t ∧
      (canonical c h callArena).1.map Canonical.form ≠
        (canonical c k callArena).1.map Canonical.form :=
  ⟨{ context := callContext, simplifier := .saturation }, wellFormed_callArena,
    ⟨_, _, _, _, _, canonical_call_f_ne⟩,
    ⟨_, _, _, _, _, canonical_call_p_ne⟩⟩

end Build

end Resolvent

import Resolvent.Proofs.Expression.Upkeep
import Resolvent.Proofs.Solve.Resolution
import Resolvent.Proofs.Solve.Symbols
import Resolvent.Proofs.Term.Placeholders

/-!
# Passes that keep arenas well-formed

A pass over equations whose sides are stored leaves a well-formed arena well-formed, however it ends
(`EquationStore.wellFormed_of_ofPass`).  The stages of a pass hand on forms, and what is stored of
them at the end are expressions with their symbols; so each stage keeps the symbols of the forms of
its state among those that have names.
-/

namespace Resolvent

/-! ### Canonical forms -/

namespace Build

variable {A : Arena} {h : Handle} {I : Arena → Prop} {R : Handle → Arena → Prop}

/-- Storing the expanded expression yields what its run does. -/
theorem expand_yields_of_run {Δ : Definitions} {mode : Mode} {e : Expression}
    {Q : Handle × Encounters → Arena → Prop}
    (hm : Resolvent.Yields Prod.fst (fun x => I x.1) (e.expand Δ mode) (A, {}) R)
    (hQ : ∀ k B met, e.expand Δ mode (A, {}) = (.ok k, (B, met)) → R k B → Q (k, met) B) :
    Resolvent.Yields id I (Build.expand Δ mode e) A Q := by
  obtain ⟨hgrows, hkeeps, hresult⟩ := hm
  constructor <;> unfold Build.expand
  all_goals
    rcases hrun : e.expand Δ mode (A, {}) with ⟨x | k, B, met⟩
    <;> rw [hrun] at hgrows hkeeps hresult
  · exact hgrows
  · exact hgrows
  · exact hkeeps
  · exact hkeeps
  · exact nofun
  · exact fun r hr => Except.ok.inj hr ▸ hQ k B met hrun (hresult k rfl)

theorem expand_yields {Δ : Definitions} {e : Expression} (hA : A.WellFormed)
    (hΔ : Δ.IdentifiersIn A.Named) (mode : Mode) (he : e.IdentifiersIn A.Named) :
    Yields (Build.expand Δ mode e) A fun r B => Stored r.1 B :=
  expand_yields_of_run (Expression.expand_yields hA hΔ mode he {}) fun _ _ _ _ hk => hk

/-- A term is stored in place of an expression with a property, and gets the property too or leaves
the expression. -/
theorem replaceBy_yields (hR : Lasting R) (hh : R h A) {placeholders : List Handle} {t : Term}
    (ht : Resolvent.Yields id I (t.build placeholders) A R) :
    Resolvent.Yields id I (replaceBy h placeholders t) A R := by
  obtain ⟨hgrows, hkeeps, hresult⟩ := ht
  constructor <;> unfold replaceBy
  all_goals
    rcases hrun : t.build placeholders A with ⟨x | r, B⟩
    <;> rw [hrun] at hgrows hkeeps hresult
  · cases x <;> exact hgrows
  · exact hgrows
  · cases x <;> exact hkeeps
  · exact hkeeps
  · cases x with
    | exhausted x => exact nofun
    | _ => exact fun r hr => Except.ok.inj hr ▸ hR _ _ _ hgrows hh
  · exact fun a ha => Except.ok.inj ha ▸ hresult r rfl

/-- Simplifying functions keeps what storing the simplified term does. -/
theorem simplifyFunctions_yields_of_build {simplify : Term → Term} (hR : Lasting R) (hA : I A)
    (hh : R h A) (hbuild : Resolvent.Yields id I
      ((simplify (A.term h).1).build (A.term h).2) A R) :
    Resolvent.Yields id I (simplifyFunctions simplify h) A R := by
  refine .get_bind ?_
  split
  · dsimp only
    split
    · exact .pure hA hh
    · exact replaceBy_yields hR hh hbuild
  · exact .pure hA hh

theorem simplifyFunctions_yields (simplify : Term → Term) (hA : A.WellFormed)
    (hh : Stored h A) : Yields (simplifyFunctions simplify h) A Stored :=
  simplifyFunctions_yields_of_build lasting_stored hA hh
    (Term.build_yields hA (fun _ hp => Arena.contains_of_mem_term hA hh hp) _)

/-- The symbols of a canonical form have names. -/
theorem canonical_yields (c : Canonizer) (h : Handle) (hA : A.WellFormed) :
    Yields (canonical c h) A fun r B => r.form.SymbolsIn B.Named := by
  refine .get_bind ((expand_yields hA (hA.definitions _) _ (hA.identifiersIn_expression h)).bind
    fun expanded B _ hB hexpanded => ?_)
  refine ((simplifyFunctions_yields _ hB hexpanded).adapt _).bind fun simplified C _ hC _ => ?_
  have hform : ∀ form, (C.expression simplified).form c.preferences = .ok form →
      form.SymbolsIn C.Named := fun form =>
    Expression.form_symbolsIn (hC.identifiersIn_expression simplified)
  exact .get_bind ((Yields.ofExcept (Q := fun form A => form.SymbolsIn A.Named) hC hform).bind
    fun form D _ hD hform => .pure hD hform)

end Build

/-! ### Stages -/

namespace Stage

variable {σ τ ε α : Type} {J : σ → Arena → Prop} {x : σ × Arena} {Q : α → Arena → Prop}

/-- Run from a well-formed arena and a state with a property, the stage leaves an arena and a state
of the same kind, and the result has a property there. -/
abbrev Yields (J : σ → Arena → Prop) (m : Stage σ α) (x : σ × Arena) (Q : α → Arena → Prop) : Prop :=
  Resolvent.Yields Prod.snd (fun x => x.2.WellFormed ∧ J x.1 x.2) m x Q

/-- The stage leaves an arena and a state of the same kind, and nothing is asked of its result. -/
abbrev Keeps (J : σ → Arena → Prop) (m : Stage σ α) (x : σ × Arena) : Prop :=
  Yields J m x fun _ _ => True

/-- The arena is well-formed, and the state has a property. -/
abbrev Kept (J : σ → Arena → Prop) (x : σ × Arena) : Prop := x.2.WellFormed ∧ J x.1 x.2

theorem build_yields {m : Build α} (hJ : Lasting J) (hx : Kept J x) (hm : Build.Yields m x.2 Q) :
    Yields J (Stage.build m) x Q := by
  obtain ⟨s, A⟩ := x
  obtain ⟨hgrows, hkeeps, hresult⟩ := hm
  constructor <;> unfold Stage.build <;> dsimp only
  all_goals rcases hrun : m A with ⟨e | a, B⟩ <;> rw [hrun] at hgrows hkeeps hresult
  · exact hgrows
  · exact hgrows
  · exact ⟨hkeeps, hJ _ _ _ hgrows hx.2⟩
  · exact ⟨hkeeps, hJ _ _ _ hgrows hx.2⟩
  · exact nofun
  · exact fun b hb => Except.ok.inj hb ▸ hresult a rfl

theorem settle_yields {m : BuildT ε α} (hJ : Lasting J) (hx : Kept J x)
    (hm : Build.Yields m x.2 Q) :
    Yields J (settle m) x fun r A => ∀ a, r = .ok a → Q a A :=
  ⟨hm.grows, ⟨hm.keeps, hJ _ _ _ hm.grows hx.2⟩, fun _ h _ ha =>
    hm.result _ ((Except.ok.inj h).trans ha)⟩

theorem look_keeps (f : σ → α) (hx : Kept J x) : Keeps J (look f) x :=
  ⟨.refl _, hx, fun _ _ => trivial⟩

theorem look_yields {f : σ → α} (hx : Kept J x) (h : Q (f x.1) x.2) : Yields J (look f) x Q :=
  ⟨.refl _, hx, fun _ ha => Except.ok.inj ha ▸ h⟩

theorem arena_yields (hx : Kept J x) : Yields J arena x fun B A => B = A :=
  ⟨.refl _, hx, fun _ ha => (Except.ok.inj ha).symm⟩

theorem update_yields {f : σ → σ} (hx : Kept J x) (h : J (f x.1) x.2) :
    Keeps J (update f) x := ⟨.refl _, ⟨hx.1, h⟩, fun _ _ => trivial⟩

theorem halt_yields (hx : Kept J x) (h : Halt) : Yields J (halt h : Stage σ α) x Q :=
  ⟨.refl _, hx, nofun⟩

theorem onPart_yields {get : σ → τ} {put : τ → σ → σ} {m : Stage τ α} {K : τ → Arena → Prop}
    (hput : ∀ t A, K t A → J (put t x.1) A) (hm : Yields K m (get x.1, x.2) Q) :
    Yields J (onPart get put m) x Q :=
  ⟨hm.grows, ⟨hm.keeps.1, hput _ _ hm.keeps.2⟩, hm.result⟩

end Stage

/-! ### Catalogs -/

namespace Catalog

open Stage

/-- The symbols of the forms have names. -/
def Named (k : Catalog) (A : Arena) : Prop := ∀ f ∈ k.forms, f.SymbolsIn A.Named

theorem lasting_symbolsIn : Lasting fun (f : Form) A => f.SymbolsIn A.Named :=
  fun _ _ _ hAB hf id hid => hAB.named (hf id hid)

theorem lasting_named : Lasting Named := fun _ _ _ hAB hk f hf =>
  lasting_symbolsIn _ _ _ hAB (hk f hf)

variable {x : Catalog × Arena}

theorem noteForm_yields (hx : Kept Named x) {c : Canonical} (hc : c.form.SymbolsIn x.2.Named) :
    Keeps Named (noteForm c) x := by
  refine (look_keeps _ hx).bind fun known y hxy hy _ => ?_
  refine (update_yields hy hy.2).bind fun _ z hyz hz _ => ?_
  split
  · exact halt_yields hz _
  · refine update_yields hz fun f hf => ?_
    rcases List.mem_append.1 hf with hf | hf
    · exact hz.2 f hf
    · rw [List.mem_singleton.1 hf]
      exact lasting_symbolsIn _ _ _ (hxy.trans hyz) hc

theorem noteResult_yields (hx : Kept Named x) {r : Except CanonicalError Canonical}
    (hr : ∀ c, r = .ok c → c.form.SymbolsIn x.2.Named) :
    Keeps Named (noteResult r) x := by
  unfold noteResult
  split
  · exact noteForm_yields hx (hr _ rfl)
  all_goals exact halt_yields hx _

theorem noteEquation_yields (hx : Kept Named x) (c : Canonizer) (h : Handle) :
    Keeps Named (noteEquation c h) x := by
  have hcanonical : ∀ (c : Canonizer) (y : Catalog × Arena), Kept Named y →
      Stage.Yields Named (settle (Build.canonical c h)) y fun r A =>
        ∀ k, r = .ok k → k.form.SymbolsIn A.Named := fun c y hy =>
    settle_yields lasting_named hy (Build.canonical_yields c h hy.1)
  have hplain : ∀ (c : Canonizer) (y : Catalog × Arena), Kept Named y →
      Keeps Named (settle (Build.canonical c h) >>= noteResult) y := fun c y hy =>
    (hcanonical c y hy).bind fun r z _ hz hr => noteResult_yields hz hr
  refine (look_keeps _ hx).bind fun known y _ hy _ => ?_
  split
  · refine (hcanonical _ y hy).bind fun symbolic z _ hz hsymbolic => ?_
    refine (arena_yields hz).bind fun A u hzu hu _ => ?_
    refine (update_yields hu ?_).bind fun _ v huv hv _ => ?_
    · cases symbolic <;> exact hu.2
    · split
      · exact noteResult_yields hv fun k hk =>
          lasting_symbolsIn _ _ _ (hzu.trans huv) (hsymbolic k hk)
      · exact hplain c.later v hv
  · exact hplain c y hy

theorem noteAll_yields (hx : Kept Named x) (c : Canonizer) (hs : List Handle) :
    Keeps Named (noteAll c hs) x := by
  induction hs generalizing x c with
  | nil => exact .pure hx trivial
  | cons h hs ih => exact (noteEquation_yields hx c h).bind fun _ y _ hy _ => ih hy _

theorem classify_yields (hx : Kept Named x) (c : Canonizer) (hs : List Handle) :
    Keeps Named (classify c hs) x :=
  (update_yields hx fun _ hf => absurd hf List.not_mem_nil).bind fun _ _ _ hy _ => noteAll_yields hy c hs

end Catalog

/-! ### Solutions -/

namespace Solution

open Stage

variable {P : Arena → Prop} {x : List Solution × Arena} {p : Preferences} {exam : ExamMode}
  {status : Status} (hP : ∀ A B : Arena, A.GrowsTo B → P A → P B)

include hP

theorem present_yields (hx : Kept (fun _ => P) x) {answer : Answer}
    (h : answer.SymbolsIn x.2.Named) : Keeps (fun _ => P) (present p exam status answer) x := by
  have hlasting : Lasting fun (_ : List Solution) => P := fun _ A B => hP A B
  obtain ⟨hexact, happroximate⟩ := h.rendition (p := p)
  refine (build_yields hlasting hx (Build.store_yields hx.1 hexact)).bind
    fun exact y hxy hy _ => ?_
  refine (build_yields hlasting hy (Build.store_yields hy.1 (hxy.identifiersIn happroximate))).bind
    fun approximate z _ hz _ => ?_
  refine (arena_yields (J := fun _ => P) hz).bind fun A u _ hu _ => ?_
  split
  · exact .pure hu trivial
  · exact .pure hu trivial
  · exact (update_yields (J := fun _ => P) hu hu.2).bind fun _ v _ hv _ => .pure hv trivial

theorem presentAll_yields (hx : Kept (fun _ => P) x) {answers : List Answer}
    (h : ∀ answer ∈ answers, answer.SymbolsIn x.2.Named) :
    Keeps (fun _ => P) (presentAll p exam status answers) x := by
  induction answers generalizing x status with
  | nil => exact .pure hx trivial
  | cons answer answers ih =>
    obtain ⟨hanswer, hanswers⟩ := List.forall_mem_cons.1 h
    refine (present_yields hP hx hanswer).bind fun status y hxy hy _ => ih hy fun a ha => ?_
    cases a with
    | exact f => exact Catalog.lasting_symbolsIn _ _ _ hxy (hanswers _ ha)
    | _ => trivial

end Solution

/-! ### Passes -/

namespace EquationStore

open Stage

/-- The symbols of the forms in the catalog have names. -/
def Named (s : EquationStore) (A : Arena) : Prop := s.catalog.Named A

theorem lasting_named : Lasting Named := fun _ _ _ hAB hs => Catalog.lasting_named _ _ _ hAB hs

variable {x : EquationStore × Arena}

theorem record_yields (hx : Kept Named x) (f : Results → Results) :
    Keeps Named (record f) x := update_yields hx hx.2

theorem listAnswers_yields (hx : Kept Named x) (options : SolveOptions) (p : Preferences)
    {answers : List Answer} (h : ∀ answer ∈ answers, answer.SymbolsIn x.2.Named) :
    Keeps Named (listAnswers options p answers) x := by
  have hsolutions : Keeps Named (onSolutions (Solution.presentAll p options.exam .noError answers))
      x :=
    onPart_yields (fun _ _ h => h)
      (Solution.presentAll_yields (fun _ _ => Catalog.lasting_named _ _ _) hx h)
  refine hsolutions.bind fun status y _ hy _ => (record_yields hy _).bind fun _ z _ hz _ => ?_
  exact (record_yields hz _).bind fun _ u _ hu _ => .pure hu trivial

theorem prepareSearch_yields (hx : Kept Named x) (e : SearchEquation) :
    Keeps Named (prepareSearch e) x := by
  refine (record_yields hx _).bind fun _ y _ hy _ => (update_yields hy hy.2).bind
    fun _ z _ hz _ => ?_
  exact (record_yields hz _).bind fun _ u _ hu _ => .pure hu trivial

theorem solveEquation_yields (hx : Kept Named x) (options : SolveOptions) (p : Preferences)
    (mode : Mode) (hs : List Handle) :
    Keeps Named (solveEquation options p mode hs) x := by
  refine (look_yields (Q := Catalog.Named) hx hx.2).bind fun k y _ hy hk => ?_
  split
  · next unknown f h hunknowns hforms =>
    split
    · next roots hroots =>
      have hf : f.SymbolsIn y.2.Named := hk f (by simp [hforms])
      refine (record_yields hy _).bind fun _ z hyz hz _ => listAnswers_yields hz _ _ ?_
      exact PolynomialRoots.symbolsIn (Catalog.lasting_symbolsIn _ _ _ hyz hf) hroots
    · exact prepareSearch_yields hy _
  · exact halt_yields hy _

theorem solveCatalog_yields (hx : Kept Named x) (options : SolveOptions) (p : Preferences)
    (mode : Mode) (hs : List Handle) :
    Keeps Named (solveCatalog options p mode hs) x := by
  refine (look_yields (Q := Catalog.Named) hx hx.2).bind fun k y _ hy hk => ?_
  split
  · next values hvalues =>
    refine listAnswers_yields hy _ _ fun a ha => ?_
    obtain ⟨f, hf, rfl⟩ := List.mem_map.1 ha
    exact LinearSystem.symbolsIn_of_unique hk hvalues f hf
  · exact .pure hy trivial
  · exact (record_yields hy _).bind fun _ z _ hz _ => .pure hz trivial
  · exact solveEquation_yields hy _ _ _ _

theorem solveForms_yields (hx : Kept Named x) (Γ : Context Handle) (options : SolveOptions)
    (mode : Mode) (hs : List Handle) :
    Keeps Named (solveForms Γ options mode hs) x := by
  refine (arena_yields hx).bind fun A y _ hy _ => ?_
  have hcatalog : ∀ c, Keeps Named (onCatalog (Catalog.classify c hs)) y :=
    fun c => onPart_yields (fun _ _ h => h) (Catalog.classify_yields hy c hs)
  exact (hcatalog _).bind fun _ z _ hz _ => solveCatalog_yields hz _ _ _ _

/-- The sides of the equations are stored. -/
def SidesStored (s : EquationStore) (A : Arena) : Prop :=
  ∀ e ∈ s.equations, Stored e.lhs A ∧ Stored e.rhs A

theorem solvePass_yields {s : EquationStore} {A : Arena} (hx : Kept Named (s, A))
    (hsides : s.SidesStored A) (Γ : Context Handle) (options : SolveOptions) (mode : Mode) :
    Keeps Named (solvePass Γ options mode) (s, A) := by
  have hforms : Build.Yields (s.equations.mapM Equation.standardForm) A fun hs B =>
      ∀ h ∈ hs, Stored h B := by
    refine Yields.mapM lasting_stored _ hx.1 fun e he B hAB hB => ?_
    obtain ⟨hlhs, hrhs⟩ := hsides e he
    exact Build.difference_yields hB (lasting_stored _ _ _ hAB hlhs) (lasting_stored _ _ _ hAB hrhs)
  let t : EquationStore :=
    { s with results := { s.results with replaced := decide (mode = .replaceAll) } }
  have ht : Kept Named (t, A) := hx
  have hrun : Keeps Named (Stage.build (s.equations.mapM Equation.standardForm) >>=
      solveForms Γ options mode) (t, A) :=
    (build_yields lasting_named ht hforms).bind fun hs y _ hy _ =>
      solveForms_yields hy Γ options mode hs
  exact ⟨hrun.grows, hrun.keeps, hrun.result⟩

/-- Behind a pass over equations with stored sides the arena is well-formed. -/
theorem wellFormed_of_ofPass {Γ : Context Handle} {options : SolveOptions}
    {slots : Vector (Option Equation) maxVariables} {A : Arena} {mode : Mode} {P : Outcome}
    (hA : A.WellFormed) (hsides : SidesStored { slots } A)
    (hP : Outcome.ofPass Γ options slots A mode = .ok P) : P.arena.WellFormed := by
  have hkept : Kept Named (({ slots, results := {} } : EquationStore), A) :=
    ⟨hA, fun _ hf => absurd hf List.not_mem_nil⟩
  have hwellFormed := (solvePass_yields hkept hsides Γ options mode).keeps.1
  obtain ⟨r, s, hrun, -⟩ := Outcome.exists_run_of_ofPass hP
  rwa [hrun] at hwellFormed

end EquationStore

end Resolvent

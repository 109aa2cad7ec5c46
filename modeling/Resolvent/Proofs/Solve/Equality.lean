import Resolvent.Proofs.Form.Display
import Resolvent.Proofs.Form.Gaussian
import Resolvent.Proofs.Form.RoundTrip
import Resolvent.Proofs.Numeric.UnitCircle
import Resolvent.Proofs.Solve.Upkeep

/-!
# Solutions that are shown as equalities

A solution is shown as an equality if its answer is exactly the number with the decimal digits of its
rounded parts.  Where both of its expressions write the parts, that is what they denote.  In the polar
format the approximate expression is another rounding, of modulus and argument: it never is the exact
number, unless the argument rounds to zero, because a rational argument does not belong to a number
with rational parts, and neither to a fraction of `π` (`Solution.numbers_of_equality`).
-/

namespace Resolvent

/-- Storing an expression gives a handle of it. -/
theorem Build.store_denotes {A : Arena} {e : Expression} (hA : A.WellFormed)
    (he : e.IdentifiersIn A.Named) : Build.Yields (Build.store e) A (Denotes e) := by
  have hconsistent : A.Consistent A.symbols := ⟨hA, rfl⟩
  obtain ⟨hgrows, hkeeps, hdenotes⟩ := Build.store_stores hconsistent he
  exact ⟨hgrows, hkeeps.1, hdenotes⟩

namespace Solution

variable {p : Preferences} {exam : ExamMode} {status : Status} {answer : Answer}
  {answers : List Answer}

/-! ### What is listed -/

/-- The solution shows the answer, as an equality only if the answer is the rounded number. -/
structure Shows (p : Preferences) (answer : Answer) (s : Solution) (A : Arena) : Prop where
  exact : Denotes (answer.rendition p).exact s.exact A
  approximate : Denotes (answer.rendition p).approximate s.approximate A
  finite : (answer.rendition p).kind = .finite
  equality : s.equality = true → answer.isDecimal (answer.rendition p).value = true

/-- All solutions show answers of a list. -/
def ShowAll (p : Preferences) (answers : List Answer) (l : List Solution) (A : Arena) : Prop :=
  ∀ s ∈ l, ∃ answer ∈ answers, s.Shows p answer A

theorem lasting_showAll : Lasting (ShowAll p answers) := fun _ _ _ hAB h s hs =>
  (h s hs).imp fun _ ⟨hmem, hshows⟩ => ⟨hmem, lasting_denotes _ _ _ _ hAB hshows.exact,
    lasting_denotes _ _ _ _ hAB hshows.approximate, hshows.finite, hshows.equality⟩

open Stage

theorem present_shows {x : List Solution × Arena} (hx : Kept (ShowAll p answers) x)
    (hmem : answer ∈ answers) (h : answer.SymbolsIn x.2.Named) :
    Keeps (ShowAll p answers) (present p exam status answer) x := by
  obtain ⟨hexact, happroximate⟩ := h.rendition (p := p)
  refine (build_yields lasting_showAll hx (Build.store_denotes hx.1 hexact)).bind
    fun exact y hxy hy hexact => ?_
  refine (build_yields lasting_showAll hy
    (Build.store_denotes hy.1 (hxy.identifiersIn happroximate))).bind
      fun approximate z hyz hz happroximate => ?_
  refine (arena_yields hz).bind fun A u hzu hu _ => ?_
  split
  · exact .pure hu trivial
  · exact .pure hu trivial
  · next hkind =>
    refine (update_yields hu fun s hs => ?_).bind fun _ v _ hv _ => .pure hv trivial
    rcases List.mem_append.1 hs with hs | hs
    · exact hu.2 s hs
    · obtain rfl := List.mem_singleton.1 hs
      refine ⟨answer, hmem, lasting_denotes _ _ _ _ (hyz.trans hzu) hexact,
        lasting_denotes _ _ _ _ hzu happroximate, hkind, fun hequality => ?_⟩
      exact (Bool.and_eq_true_iff.1 hequality).2

theorem presentAll_shows {x : List Solution × Arena} (hx : Kept (ShowAll p answers) x)
    {rest : List Answer} (hsub : ∀ answer ∈ rest, answer ∈ answers)
    (h : ∀ answer ∈ rest, answer.SymbolsIn x.2.Named) :
    Keeps (ShowAll p answers) (presentAll p exam status rest) x := by
  induction rest generalizing x status with
  | nil => exact .pure hx trivial
  | cons answer rest ih =>
    obtain ⟨hmem, hsub⟩ := List.forall_mem_cons.1 hsub
    obtain ⟨hanswer, hrest⟩ := List.forall_mem_cons.1 h
    refine (present_shows hx hmem hanswer).bind fun status y hxy hy _ => ih hy hsub fun a ha => ?_
    cases a with
    | exact f => exact Catalog.lasting_symbolsIn _ _ _ hxy (hrest _ ha)
    | _ => trivial

end Solution

/-! ### Numbers that are shown -/

namespace Rendition

variable {p : Preferences} {f : Form}

theorem exists_of_isDecimal {z : Complex} (h : isDecimal f z = true) :
    ∃ q r, z.IsDecimal q r ∧ f = Form.ofParts q r := by
  unfold isDecimal at h
  split at h
  · next q r hq hr => exact ⟨q, r, ⟨hq, hr⟩, of_decide_eq_true h⟩
  · cases h

/-- A form that is a finite number is displayed next to its rounded value. -/
theorem ofForm_of_finite (h : (ofForm p f).kind = .finite) :
    let value := (f.constantValue p.angleUnit).round p.digits
    ofForm p f = ⟨f.display p, value.display p, value, .finite⟩ := by
  unfold ofForm at h ⊢
  dsimp only at h ⊢
  split at h
  · cases h
  · next hfinite =>
    rw [if_neg hfinite]
    split at h
    · cases h
    · next hreal => rw [if_neg hreal]

end Rendition

section Numbers

variable {p : Preferences} {q r : Rat} {z : Complex} {x : Nat → ℂ}
  {functions : Builtin → List ℂ → ℂ}

/-- Where both expressions write the parts of the number, both are read as the number. -/
theorem Complex.IsDecimal.numbers_of_plain (h : z.IsDecimal q r)
    (hplain : p.complexFormat = .polar → r = 0 ∧ 0 ≤ q) :
    ((Form.ofParts q r).display p).number? (Arithmetic.principal x functions) =
        some (q + r * Complex.I) ∧
      (z.display p).number? (Arithmetic.principal x functions) = some (q + r * Complex.I) := by
  refine ⟨(Form.number?_display_ofParts p q r).1 fun hformat => ?_, h.number?_display hplain⟩
  obtain ⟨rfl, hq⟩ := hplain hformat
  exact Form.polarParts?_ofParts_of_nonneg hq

/-- Where the approximate expression writes modulus and argument, the expressions are not read as the
same number, unless the argument rounds to zero. -/
theorem Complex.IsDecimal.argument_of_polar (h : z.IsDecimal q r)
    (hformat : p.complexFormat = .polar) (hpolar : r ≠ 0 ∨ q < 0) {y : ℂ}
    (hexact : ((Form.ofParts q r).display p).number? (Arithmetic.principal x functions) = some y)
    (happroximate : (z.display p).number? (Arithmetic.principal x functions) = some y) :
    Double.shortestRational? (Double.roundSignificant z.arg p.digits) = some 0 := by
  have hne : (q + r * Complex.I : ℂ) ≠ 0 := by
    intro hzero
    obtain ⟨hre, him⟩ := Complex.ext_iff.1 hzero
    have hre : (q : ℝ) = 0 := by simpa using hre
    have him : (r : ℝ) = 0 := by simpa using him
    rcases hpolar with hr | hq
    · exact hr (by exact_mod_cast him)
    · exact hq.ne (by exact_mod_cast hre)
  rw [h.display_eq hformat hpolar] at happroximate
  obtain ⟨m, t, -, ht, rfl⟩ := Complex.exists_of_number?_polarExpression happroximate
  obtain ⟨hsum, hmodulus⟩ := Form.number?_display_ofParts p q r
  suffices t = 0 from this ▸ ht
  cases hparts : (Form.ofParts q r).polarParts? p with
  | none =>
    rw [hsum fun _ => hparts] at hexact
    exact UnitCircle.eq_zero_of_mul_exp_eq hne (Option.some.inj hexact).symm
  | some parts =>
    rw [hmodulus parts.1 parts.2 hformat hparts] at hexact
    exact UnitCircle.eq_zero_of_mul_exp_eq_norm hne (Option.some.inj hexact).symm

end Numbers

namespace Solution

variable {x : Nat → ℂ} {functions : Builtin → List ℂ → ℂ} {A : Arena} {answers : List Answer}

/-- **Equalities.**  A solution that is shown as an equality has an answer with rational parts, which
are the decimal numbers of its rounded value.  In all formats but the polar one, and for numbers that
are real and not negative, its exact and its approximate expression are both read as that number.  Any
other number that the polar format shows as an equality is read as two different ones, unless its
rounded argument is zero. -/
theorem numbers_of_equality (p : Preferences) (exam : ExamMode) (status : Status)
    (hA : A.WellFormed) (hanswers : ∀ answer ∈ answers, answer.SymbolsIn A.Named) :
    let y := (presentAll p exam status answers ([], A)).2
    let R := Arithmetic.principal x functions
    ∀ s ∈ y.1, s.equality = true → ∃ q r : Rat, .exact (Form.ofParts q r) ∈ answers ∧
      ((p.complexFormat = .polar → r = 0 ∧ 0 ≤ q) →
        (y.2.expression s.exact).number? R = some (q + r * Complex.I) ∧
        (y.2.expression s.approximate).number? R = some (q + r * Complex.I)) ∧
      (p.complexFormat = .polar → r ≠ 0 ∨ q < 0 →
        ∀ w, (y.2.expression s.exact).number? R = some w →
          (y.2.expression s.approximate).number? R = some w →
          Double.shortestRational? (Double.roundSignificant
            (((Form.ofParts q r).constantValue p.angleUnit).round p.digits).arg p.digits) =
              some 0) := by
  intro y R s hs hequality
  have hempty : Stage.Kept (ShowAll p answers) (([] : List Solution), A) :=
    ⟨hA, List.forall_mem_nil _⟩
  have hpresents : Stage.Keeps (ShowAll p answers) (presentAll p exam status answers) ([], A) :=
    presentAll_shows hempty (fun _ h => h) hanswers
  obtain ⟨-, ⟨-, hshows⟩, -⟩ := hpresents
  obtain ⟨answer, hmem, hexact, happroximate, hfinite, hdecimal⟩ := hshows s hs
  have hdecimal := hdecimal hequality
  cases answer with
  | unreal | approximate => cases hdecimal
  | exact f =>
    obtain ⟨q, r, hz, rfl⟩ := Rendition.exists_of_isDecimal hdecimal
    have hrendition := Rendition.ofForm_of_finite hfinite
    change Denotes (Rendition.ofForm p (Form.ofParts q r)).exact s.exact y.2 at hexact
    change Denotes (Rendition.ofForm p (Form.ofParts q r)).approximate s.approximate y.2
      at happroximate
    change (Rendition.ofForm p (Form.ofParts q r)).value.IsDecimal q r at hz
    rw [hrendition] at hexact happroximate hz
    rw [hexact.expression_eq, happroximate.expression_eq]
    exact ⟨q, r, hmem, hz.numbers_of_plain, fun hformat hpolar w => hz.argument_of_polar hformat hpolar⟩

/-- In the polar format `-3` is shown as an equality between two different numbers, unless its rounded
argument is zero. -/
theorem numbers_of_equality_neg_three :
    let p : Preferences := { complexFormat := .polar }
    let answers : List Answer := [.exact (.ofRat (-3))]
    let A := Arena.withLimit 100
    let y := (presentAll p {} .noError answers ([], A)).2
    let R := Arithmetic.principal (fun _ => 0) fun _ _ => 0
    (A.WellFormed ∧ ∀ answer ∈ answers, answer.SymbolsIn A.Named) ∧
    ∀ s ∈ y.1, s.equality = true → ∀ w, (y.2.expression s.exact).number? R = some w →
      (y.2.expression s.approximate).number? R = some w →
        Double.shortestRational? (Double.roundSignificant
          (((Form.ofRat (-3)).constantValue p.angleUnit).round p.digits).arg p.digits) = some 0 := by
  intro p answers A y R
  have hA : A.WellFormed := .withLimit 100
  have hanswers : ∀ answer ∈ answers, answer.SymbolsIn A.Named :=
    List.forall_mem_singleton.2 (Form.symbolsIn_ofRat (-3))
  refine ⟨⟨hA, hanswers⟩, fun s hs hequality => ?_⟩
  obtain ⟨q, r, hmem, -, hpolar⟩ := numbers_of_equality p {} .noError hA hanswers s hs hequality
  have hform : Form.ofParts q r = .ofRat (-3) := Answer.exact.inj (List.mem_singleton.1 hmem)
  have hsplit := Form.splitComplex?_ofParts (q := q) (r := r)
  rw [hform] at hsplit hpolar
  have hparts : (Form.ofRat (-3)).splitComplex? = some (.ofRat (-3), .ofRat 0) := by decide +kernel
  obtain ⟨hq, -⟩ := Prod.mk.inj (Option.some.inj (hparts.symm.trans hsplit))
  obtain rfl := Form.ofRat_injective hq
  exact hpolar rfl (.inr (by decide))

end Solution

end Resolvent

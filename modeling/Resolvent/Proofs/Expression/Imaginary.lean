import Resolvent.Proofs.Expression.Layered
import Resolvent.Solve.Pass

/-!
# The imaginary unit in expanded expressions

`Expression.mentionsImaginary` looks for the imaginary unit in an expression and in the definitions
that it refers to, without expanding it (`Expression.Mentions`).  What the expanded expression
contains is always found.  More is found where expansion passes over a mention
(`Expression.PassesOver`): a parameter in scope hides the variable of its name, whose value is then
not needed, and the body of a function may ignore the argument of a call.  There is no other
difference (`Expression.mentionsImaginary_expand`).

Both facts about expansion are inductions on how an expression unfolds at a depth
(`Expression.unfoldAt_induction`).
-/

namespace Resolvent

namespace Expression

variable {Δ : Definitions} {mode : Mode} {depth : Nat} {scope : Arguments} {e t : Expression}

/-! ### Mentions -/

/-- The imaginary unit is part of the expression, or of the value of a variable or the body of a
function that it refers to, where definitions are followed so deep. -/
inductive Mentions (Δ : Definitions) (mode : Mode) : Nat → Expression → Prop
  | here {depth : Nat} : Mentions Δ mode depth (constant .imaginaryUnit)
  | value {depth id : Nat} {v : Expression} (hmode : mode = .replaceAll) (hv : Δ.value? id = some v)
    (h : Mentions Δ mode depth v) : Mentions Δ mode (depth + 1) (symbol id)
  | body {depth name : Nat} {a body : Expression} {parameter : Option Nat}
    (hbody : Δ.function? name = some (parameter, body)) (h : Mentions Δ mode depth body) :
    Mentions Δ mode (depth + 1) (call name a)
  | operand {depth : Nat} {e c : Expression} (hc : c ∈ e.operands) (h : Mentions Δ mode depth c) :
    Mentions Δ mode depth e

/-- What is asked of definitions at a depth. -/
def askAt (Δ : Definitions) (mode : Mode) : Nat → Expression → Bool
  | 0 => fun _ => false
  | depth + 1 => mentionsImaginaryAt Δ mode depth

theorem mentionsImaginaryAt_eq (depth : Nat) (e : Expression) :
    mentionsImaginaryAt Δ mode depth e = e.any (refersTo Δ mode (askAt Δ mode depth)) := by
  cases depth <;> rfl

theorem refersTo_eq_true_iff {ask : Expression → Bool} : refersTo Δ mode ask e = true ↔
    e = constant .imaginaryUnit ∨
      (∃ id v, e = symbol id ∧ mode = .replaceAll ∧ Δ.value? id = some v ∧ ask v = true) ∨
      ∃ name a parameter body, e = call name a ∧ Δ.function? name = some (parameter, body) ∧
        ask body = true := by
  cases e with
  | constant c => cases c <;> simp [refersTo]
  | symbol id => simp [refersTo, Option.any_eq_true]
  | call name a => simp [refersTo, Option.any_eq_true]
  | _ => simp [refersTo]

theorem exists_of_askAt (h : askAt Δ mode depth e = true) :
    ∃ d, depth = d + 1 ∧ mentionsImaginaryAt Δ mode d e = true := by
  cases depth with
  | zero => cases h
  | succ d => exact ⟨d, rfl, h⟩

theorem mentionsImaginaryAt_iff : mentionsImaginaryAt Δ mode depth e = true ↔
    Mentions Δ mode depth e := by
  constructor
  · intro h
    induction depth using Nat.strongRecOn generalizing e with
    | ind depth ihdepth =>
      induction e using induction_on_operands with
      | h e ih =>
        rw [mentionsImaginaryAt_eq, any_eq_true_iff] at h
        rcases h with h | ⟨c, hc, h⟩
        · rcases refersTo_eq_true_iff.1 h with rfl | ⟨id, v, rfl, hmode, hv, h⟩ |
            ⟨name, a, parameter, body, rfl, hbody, h⟩
          · exact .here
          · obtain ⟨d, rfl, h⟩ := exists_of_askAt h
            exact .value hmode hv (ihdepth d d.lt_succ_self h)
          · obtain ⟨d, rfl, h⟩ := exists_of_askAt h
            exact .body hbody (ihdepth d d.lt_succ_self h)
        · rw [← mentionsImaginaryAt_eq] at h
          exact .operand hc (ih c hc h)
  · intro h
    induction h with
    | here =>
      rw [mentionsImaginaryAt_eq, any_eq_true_iff]
      exact .inl rfl
    | value hmode hv _ ih =>
      rw [mentionsImaginaryAt_eq, any_eq_true_iff]
      exact .inl (refersTo_eq_true_iff.2 (.inr (.inl ⟨_, _, rfl, hmode, hv, ih⟩)))
    | body hbody _ ih =>
      rw [mentionsImaginaryAt_eq, any_eq_true_iff]
      exact .inl (refersTo_eq_true_iff.2 (.inr (.inr ⟨_, _, _, _, rfl, hbody, ih⟩)))
    | operand hc _ ih =>
      rw [mentionsImaginaryAt_eq] at ih
      rw [mentionsImaginaryAt_eq, any_eq_true_iff]
      exact .inr ⟨_, hc, ih⟩

/-! ### Unfolding at a depth -/

/-- What unfolds the values and bodies of definitions at a depth. -/
def unfoldNested (Δ : Definitions) (mode : Mode) :
    Nat → Arguments → Expression → Except Obstacle Expression
  | 0 => fun _ _ => .error .depth
  | depth + 1 => unfoldAt Δ mode depth

theorem unfoldAt_eq (depth : Nat) :
    unfoldAt Δ mode depth = unfoldWith Δ mode (unfoldNested Δ mode depth) := by
  cases depth <;> rfl

theorem exists_of_unfoldNested (h : unfoldNested Δ mode depth scope e = .ok t) :
    ∃ d, depth = d + 1 ∧ unfoldAt Δ mode d scope e = .ok t := by
  cases depth with
  | zero => cases h
  | succ d => exact ⟨d, rfl, h⟩

/-- What holds of parameters and of symbols that stay, and carries over from the values of variables,
the bodies of functions and from operands, holds wherever unfolding succeeds. -/
theorem unfoldAt_induction {P : Nat → Arguments → Expression → Expression → Prop}
    (bound : ∀ depth scope id t, (id, t) ∈ scope → P depth scope (symbol id) t)
    (kept : ∀ depth scope id, (mode = .replaceAll → Δ.value? id = none) →
      P depth scope (symbol id) (symbol id))
    (value : ∀ depth scope id v t, mode = .replaceAll → id ∉ scope.map Prod.fst →
      Δ.value? id = some v → P depth scope v t → P (depth + 1) scope (symbol id) t)
    (call : ∀ depth scope name a v parameter body t, unfoldAt Δ mode (depth + 1) scope a = .ok v →
      unfoldAt Δ mode (depth + 1) scope (call name a) = .ok t →
      Δ.function? name = some (parameter, body) → P (depth + 1) scope a v →
      P depth (parameter.toList.map (·, v) ++ scope) body t → P (depth + 1) scope (call name a) t)
    (regular : ∀ depth scope e ts, e.isRegular = true →
      List.Forall₂ (P depth scope) e.operands ts → P depth scope e (e.rebuild ts))
    (h : unfoldAt Δ mode depth scope e = .ok t) : P depth scope e t := by
  induction depth using Nat.strongRecOn generalizing scope e t with
  | ind depth ih =>
    rw [unfoldAt_eq] at h
    refine unfoldWith_induction (fun id t ht => ?_) (fun name a v t ha hv ht => ?_)
      (fun e ts he hts => regular depth scope e ts he hts) h
    · rcases unfoldSymbol_cases (fun _ _ => []) ht with ⟨hmem, -⟩ | ⟨v, hmode, hid, hvalue, hv, -⟩ |
        ⟨rfl, -, hkept, -⟩
      · exact bound depth scope id t hmem
      · obtain ⟨d, rfl, hv⟩ := exists_of_unfoldNested hv
        exact value d scope id v t hmode hid hvalue (ih d d.lt_succ_self hv)
      · exact kept depth scope id hkept
    · obtain ⟨parameter, body, hbody, hnested⟩ := unfoldCall_eq_ok_iff.1 ht
      obtain ⟨d, rfl, hnested⟩ := exists_of_unfoldNested hnested
      have hcall : unfoldAt Δ mode (d + 1) scope (.call name a) = .ok t := by
        rw [unfoldAt_eq, unfoldWith, hv]
        exact ht
      rw [← unfoldAt_eq] at hv
      exact call d scope name a v parameter body t hv hcall hbody ha (ih d d.lt_succ_self hnested)

/-! ### What expansion passes over -/

/-- Expansion at a depth, with parameters in scope, does not come to a mention of the imaginary
unit: it is in the value of a variable that a parameter hides, or in the argument of a call whose
value has no part of it. -/
inductive PassesOver (Δ : Definitions) (mode : Mode) : Nat → Arguments → Expression → Prop
  | hidden {depth id : Nat} {scope : Arguments} {v : Expression} (hmode : mode = .replaceAll)
    (hid : id ∈ scope.map Prod.fst) (hv : Δ.value? id = some v) (h : Mentions Δ mode depth v) :
    PassesOver Δ mode (depth + 1) scope (symbol id)
  | ignored {depth name : Nat} {scope : Arguments} {a v t : Expression}
    (ha : unfoldAt Δ mode depth scope a = .ok v)
    (ht : unfoldAt Δ mode depth scope (call name a) = .ok t) (hignored : ¬v.Within t)
    (h : Mentions Δ mode depth a) : PassesOver Δ mode depth scope (call name a)
  | value {depth id : Nat} {scope : Arguments} {v : Expression} (hmode : mode = .replaceAll)
    (hid : id ∉ scope.map Prod.fst) (hv : Δ.value? id = some v)
    (h : PassesOver Δ mode depth scope v) : PassesOver Δ mode (depth + 1) scope (symbol id)
  | body {depth name : Nat} {scope : Arguments} {a v body : Expression} {parameter : Option Nat}
    (ha : unfoldAt Δ mode (depth + 1) scope a = .ok v)
    (hbody : Δ.function? name = some (parameter, body))
    (h : PassesOver Δ mode depth (parameter.toList.map (·, v) ++ scope) body) :
    PassesOver Δ mode (depth + 1) scope (call name a)
  | operand {depth : Nat} {scope : Arguments} {e c : Expression} (hc : c ∈ e.operands)
    (h : PassesOver Δ mode depth scope c) : PassesOver Δ mode depth scope e

/-- What is passed over is mentioned. -/
theorem PassesOver.mentions (h : PassesOver Δ mode depth scope e) : Mentions Δ mode depth e := by
  induction h with
  | hidden hmode _ hv h => exact .value hmode hv h
  | ignored _ _ _ h => exact .operand List.mem_cons_self h
  | value hmode _ hv _ ih => exact .value hmode hv ih
  | body _ hbody _ ih => exact .body hbody ih
  | operand hc _ ih => exact .operand hc ih

theorem within_rebuild {ts : List Expression} (he : e.isRegular = true)
    (hlength : ts.length = e.operands.length) {x : Expression} (hx : ∃ t ∈ ts, x.Within t) :
    x.Within (e.rebuild ts) := by
  rcases rebuild_cases he hlength with ⟨t, rfl, heq⟩ | ⟨hoperands, -, -⟩
  · obtain ⟨t', ht', hx⟩ := hx
    rw [heq, ← List.mem_singleton.1 ht']
    exact hx
  · rw [within_iff, hoperands]
    exact .inr hx

/-- A constant is put together from nothing but itself. -/
theorem eq_of_rebuild_eq_constant {c : Constant} {ts : List Expression} (he : e.isRegular = true)
    (hlength : ts.length = e.operands.length) (h : constant c = e.rebuild ts) :
    constant c = e ∨ ts = [constant c] := by
  rcases rebuild_cases he hlength with ⟨t, rfl, heq⟩ | ⟨hoperands, -, -⟩
  · exact .inr (by rw [h, heq])
  · obtain rfl : ts = [] := by rw [← hoperands, ← h]; rfl
    cases e with
    | power | opposite | quotient => cases hlength
    | symbol | call | matrix => cases he
    | sum | product | apply => cases h
    | _ => exact .inl h

theorem constant_within_rebuild {c : Constant} {ts : List Expression} (he : e.isRegular = true)
    (hlength : ts.length = e.operands.length) (h : (constant c).Within (e.rebuild ts)) :
    constant c = e ∨ ∃ t ∈ ts, (constant c).Within t := by
  rcases rebuild_cases he hlength with ⟨t, rfl, heq⟩ | ⟨hoperands, -, -⟩
  · exact .inr ⟨t, List.mem_singleton_self t, heq ▸ h⟩
  · rcases within_iff.1 h with h | h
    · rcases eq_of_rebuild_eq_constant he hlength h with h | rfl
      · exact .inl h
      · exact .inr ⟨_, List.mem_singleton_self _, .self⟩
    · rw [hoperands] at h
      exact .inr h

/-- What an expression mentions comes into what it unfolds to, unless it is passed over. -/
theorem Mentions.within_or_passesOver (h : unfoldAt Δ mode depth scope e = .ok t)
    (hmentions : Mentions Δ mode depth e) :
    (constant .imaginaryUnit).Within t ∨ PassesOver Δ mode depth scope e := by
  refine unfoldAt_induction (P := fun depth scope e t => Mentions Δ mode depth e →
    (constant .imaginaryUnit).Within t ∨ PassesOver Δ mode depth scope e)
    (fun depth scope id t ht h => ?bound) (fun depth scope id hkept h => ?kept)
    (fun depth scope id v t hmode hid hv ih h => ?value)
    (fun depth scope name a v parameter body t ha ht hbody iha ih h => ?call)
    (fun depth scope e ts he hts h => ?regular) h hmentions
  case bound =>
    cases h with
    | value hmode hv h => exact .inr (.hidden hmode (List.mem_map_of_mem ht) hv h)
    | operand hc => cases hc
  case kept =>
    cases h with
    | value hmode hv h => cases hv.symm.trans (hkept hmode)
    | operand hc => cases hc
  case value =>
    cases h with
    | value _ hv' h =>
      cases hv.symm.trans hv'
      exact (ih h).imp_right (.value hmode hid hv)
    | operand hc => cases hc
  case call =>
    cases h with
    | body hbody' h =>
      cases hbody.symm.trans hbody'
      exact (ih h).imp_right (.body ha hbody)
    | operand hc h =>
      obtain rfl := List.mem_singleton.1 hc
      rcases iha h with hv | hv
      · by_cases hvt : v.Within t
        · exact .inl (hv.trans hvt)
        · exact .inr (.ignored ha ht hvt h)
      · exact .inr (.operand hc hv)
  case regular =>
    have hlength := hts.length_eq.symm
    cases h with
    | here =>
      left
      cases hts
      exact .self
    | value | body => cases he
    | operand hc h =>
      obtain ⟨t, ht, ih⟩ := exists_of_forall₂_left hts hc
      rcases ih h with h | h
      · exact .inl (within_rebuild he hlength ⟨t, ht, h⟩)
      · exact .inr (.operand hc h)

/-- The imaginary unit comes into what an expression unfolds to from a mention or an argument. -/
theorem mentions_or_of_within (h : unfoldAt Δ mode depth scope e = .ok t)
    (hwithin : (constant .imaginaryUnit).Within t) :
    Mentions Δ mode depth e ∨ ∃ p ∈ scope, (constant .imaginaryUnit).Within p.2 := by
  refine unfoldAt_induction (P := fun depth scope e t => (constant .imaginaryUnit).Within t →
    Mentions Δ mode depth e ∨ ∃ p ∈ scope, (constant .imaginaryUnit).Within p.2)
    (fun depth scope id t ht h => .inr ⟨_, ht, h⟩) (fun depth scope id hkept h => ?kept)
    (fun depth scope id v t hmode hid hv ih h => (ih h).imp_left (.value hmode hv))
    (fun depth scope name a v parameter body t ha ht hbody iha ih h => ?call)
    (fun depth scope e ts he hts h => ?regular) h hwithin
  case kept =>
    rcases within_iff.1 h with h | ⟨c, hc, -⟩
    · cases h
    · cases hc
  case call =>
    rcases ih h with h | ⟨p, hp, h⟩
    · exact .inl (.body hbody h)
    · rcases List.mem_append.1 hp with hp | hp
      · obtain ⟨q, -, rfl⟩ := List.mem_map.1 hp
        exact (iha h).imp_left (.operand List.mem_cons_self)
      · exact .inr ⟨p, hp, h⟩
  case regular =>
    rcases constant_within_rebuild he hts.length_eq.symm h with rfl | ⟨t, ht, h⟩
    · exact .inl .here
    · obtain ⟨c, hc, ih⟩ := exists_of_forall₂_right hts ht
      exact (ih h).imp_left (.operand hc)

/-- The imaginary unit is found in an expression exactly if it is part of what the expression unfolds
to or is passed over. -/
theorem mentionsImaginary_unfold (h : e.unfold Δ mode = .ok t) : e.mentionsImaginary Δ mode = true ↔
    (constant .imaginaryUnit).Within t ∨ PassesOver Δ mode maxSubstitutionDepth [] e := by
  refine mentionsImaginaryAt_iff.trans ⟨fun hm => hm.within_or_passesOver h, ?_⟩
  rintro (hwithin | hpasses)
  · exact (mentions_or_of_within h hwithin).resolve_right nofun
  · exact hpasses.mentions

/-! ### Stored expressions -/

/-- The imaginary unit is part of an expanded expression or is passed over. -/
def MeetsImaginary (Δ : Definitions) (mode : Mode) (e expanded : Expression) : Prop :=
  (constant .imaginaryUnit).Within expanded ∨ PassesOver Δ mode maxSubstitutionDepth [] e

theorem mentionsImaginary_iff_of_expand {A B : Arena} (hA : A.Layered) {Γ : Context Handle}
    {h k : Handle} {s : Encounters}
    (hrun : (A.expression h).expand (Γ.definitions A) mode (A, {}) = (.ok k, (B, s))) :
    (A.expression h).mentionsImaginary (Γ.definitions A) mode = true ↔
      MeetsImaginary (Γ.definitions A) mode (A.expression h) (B.expression k) := by
  obtain ⟨t, ht, hk, -⟩ := expand_of_layered hA hrun
  rw [hk.expression_eq]
  exact mentionsImaginary_unfold ht

/-- Where stored expressions can be expanded, the imaginary unit is found in one exactly if it is
part of the expanded expression or expansion passes over a mention of it, and real numbers give way
to complex ones exactly if that is so for one of the equations. -/
theorem mentionsImaginary_expand {A : Arena} (hA : A.Layered) (Γ : Context Handle) (mode : Mode) :
    (∀ h k B s, (A.expression h).expand (Γ.definitions A) mode (A, {}) = (.ok k, (B, s)) →
      ((A.expression h).mentionsImaginary (Γ.definitions A) mode = true ↔
        MeetsImaginary (Γ.definitions A) mode (A.expression h) (B.expression k))) ∧
    ∀ (p : Preferences) (hs : List Handle) (expanded : Handle → Expression),
      (∀ h ∈ hs, ∃ k B s, (A.expression h).expand (Γ.definitions A) mode (A, {}) =
        (.ok k, (B, s)) ∧ expanded h = B.expression k) →
      (p.complexFormat = .real →
        (∃ h ∈ hs, MeetsImaginary (Γ.definitions A) mode (A.expression h) (expanded h)) →
        p.forEquations (Γ.definitions A) mode (hs.map A.expression) =
          { p with complexFormat := .cartesian }) ∧
      ((p.complexFormat ≠ .real ∨
          ¬∃ h ∈ hs, MeetsImaginary (Γ.definitions A) mode (A.expression h) (expanded h)) →
        p.forEquations (Γ.definitions A) mode (hs.map A.expression) = p) := by
  refine ⟨fun h k B s => mentionsImaginary_iff_of_expand hA, fun p hs expanded hexpanded => ?_⟩
  have hany : ((hs.map A.expression).any fun e => e.mentionsImaginary (Γ.definitions A) mode) = true ↔
      ∃ h ∈ hs, MeetsImaginary (Γ.definitions A) mode (A.expression h) (expanded h) := by
    rw [List.any_map, List.any_eq_true]
    refine exists_congr fun h => and_congr_right fun hh => ?_
    obtain ⟨k, B, s, hrun, heq⟩ := hexpanded h hh
    rw [heq]
    exact mentionsImaginary_iff_of_expand hA hrun
  unfold Preferences.forEquations Preferences.upgraded
  constructor
  · intro hreal hmeets
    rw [if_pos (hany.2 hmeets), if_pos hreal]
  · rintro (hreal | hmeets)
    · rw [if_neg hreal, ite_self]
    · rw [if_neg (hany.not.2 hmeets)]

/-! ### A parameter with the name of a stored variable -/

/-- The nodes of `𝐢`, of the body `x + 1`, of the call `f(2)` and of `2 + 1`. -/
def shadowedArena : Arena := .ofNodes ["x", "f"] [.constant .imaginaryUnit, .symbol 0, .integer 1,
  .sum [⟨1⟩, ⟨2⟩], .integer 2, .call 1 ⟨4⟩, .sum [⟨4⟩, ⟨2⟩]]

/-- The definitions `x = 𝐢` and `f(x) = x + 1`. -/
def shadowedContext : Context Handle :=
  (({} : Context Handle).define "x" (.variable ⟨0⟩)).define "f" (.function "x" ⟨3⟩)

theorem wellFormed_shadowedArena : shadowedArena.WellFormed :=
  .ofNodes (by decide) (by decide) (by decide)

theorem function?_shadowedContext :
    (shadowedContext.definitions shadowedArena).function? 1 =
      some (some 0, sum [symbol 0, integer 1]) := by
  have hparameter : shadowedArena.symbolId? "x" = some 0 := Symbols.id?_of_name? (by decide) rfl
  exact congrArg (fun parameter => some (parameter, _)) hparameter

theorem expand_shadowedArena :
    (shadowedArena.expression ⟨5⟩).expand (shadowedContext.definitions shadowedArena) .replaceAll
      (shadowedArena, {}) = (.ok ⟨6⟩, (shadowedArena, {})) := by
  have hintern : ∀ {k n}, shadowedArena.node? k = some n →
      Build.intern n shadowedArena = (.ok k, shadowedArena) := fun hk =>
    Build.intern_of_node? wellFormed_shadowedArena hk
  have hone := hintern (k := ⟨2⟩) (n := .integer 1) rfl
  have htwo := hintern (k := ⟨4⟩) (n := .integer 2) rfl
  have hsum := hintern (k := ⟨6⟩) (n := .sum [⟨4⟩, ⟨2⟩]) rfl
  have hdepend : ExpandM.dependOn ⟨4⟩ (shadowedArena, {}) = (.ok (), (shadowedArena, {})) := rfl
  have hbody : expandAt (shadowedContext.definitions shadowedArena) .replaceAll 31
      [(0, ⟨4⟩)] (sum [symbol 0, integer 1]) (shadowedArena, {}) =
        (.ok ⟨6⟩, (shadowedArena, {})) := by
    change expandWith _ _ _ _ (sum [symbol 0, integer 1]) _ = _
    have hsumOf : Build.sum [⟨4⟩, ⟨2⟩] = Build.intern (.sum [⟨4⟩, ⟨2⟩]) := rfl
    simp [-bind_pure_comp, expandWith, expandAllWith, expandSymbol, bind_run, pure_run,
      ExpandM.build, Build.integer, hone, hsumOf, hsum]
  change expandWith _ _ (expandAt _ _ 31) [] (call 1 (integer 2)) _ = _
  simp [-bind_pure_comp, expandWith, expandCall, bind_run, ExpandM.build, Build.integer, htwo,
    hdepend, function?_shadowedContext, hbody]

/-- The call `f(2)` expands to `2 + 1`, yet the hidden value of `x` is found in it. -/
theorem mentionsImaginary_expand_shadowed :
    let Δ := shadowedContext.definitions shadowedArena
    (shadowedArena.Layered ∧ (shadowedArena.expression ⟨5⟩).expand Δ .replaceAll (shadowedArena, {}) =
      (.ok ⟨6⟩, (shadowedArena, {}))) ∧
    (shadowedArena.expression ⟨5⟩).mentionsImaginary Δ .replaceAll = true ∧
    ¬(constant .imaginaryUnit).Within (shadowedArena.expression ⟨6⟩) ∧
    PassesOver Δ .replaceAll maxSubstitutionDepth [] (shadowedArena.expression ⟨5⟩) ∧
    ({} : Preferences).forEquations Δ .replaceAll [shadowedArena.expression ⟨5⟩] =
      { ({} : Preferences) with complexFormat := .cartesian } := by
  intro Δ
  have hlayered : shadowedArena.Layered := wellFormed_shadowedArena.layered
  obtain ⟨hfound, hformat⟩ := mentionsImaginary_expand hlayered shadowedContext .replaceAll
  have hmentions : (shadowedArena.expression ⟨5⟩).mentionsImaginary Δ .replaceAll = true := rfl
  have hnot : ¬(constant .imaginaryUnit).Within (shadowedArena.expression ⟨6⟩) := by
    intro h
    rcases within_iff.1 h with h | ⟨c, hc, h⟩
    · cases h
    · change c ∈ [integer 2, integer 1] at hc
      obtain rfl | rfl : c = integer 2 ∨ c = integer 1 := by simpa using hc
      all_goals
        rcases within_iff.1 h with h | ⟨d, hd, -⟩
        · cases h
        · cases hd
  have hmeets := (hfound ⟨5⟩ ⟨6⟩ shadowedArena {} expand_shadowedArena).1 hmentions
  refine ⟨⟨hlayered, expand_shadowedArena⟩, hmentions, hnot, hmeets.resolve_left hnot, ?_⟩
  refine (hformat {} [⟨5⟩] (fun _ => shadowedArena.expression ⟨6⟩) ?_).1 rfl
    ⟨⟨5⟩, List.mem_singleton_self _, hmeets⟩
  intro h hh
  obtain rfl := List.mem_singleton.1 hh
  exact ⟨⟨6⟩, shadowedArena, {}, expand_shadowedArena, rfl⟩

end Expression

end Resolvent

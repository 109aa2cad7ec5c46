import Resolvent.Proofs.Expression.Operands

/-!
# What expansion records

`Expression.encounters` lists the symbols that unfolding an expression meets and leaves as they are,
in order, the argument of a call before the body of the function.  Expansion records just these: the
first meeting of each, and those in the arguments of calls besides
(`Expression.expand_records`).

The arguments of calls are recorded by what they expand to.  That comes to the same, because the
symbols of what an expression unfolds to have been met in it or come with a parameter in scope, and
a symbol that has been met stays unless it stands in the argument of a call (`Expression.Traces`).
-/

namespace Resolvent

/-- A symbol that expansion meets and leaves as it is. -/
structure Encounter where
  /-- The symbol. -/
  id : Nat
  /-- It is met in the argument of a call. -/
  inArgument : Bool
  deriving DecidableEq

namespace Expression

variable {Δ : Definitions} {mode : Mode}

/-! ### Encounters -/

section

variable (Δ mode) (nested : List Nat → Expression → List Encounter) (bound : List Nat)

/-- What is met where a symbol stands and some symbols are parameters in scope. -/
def encountersSymbol (id : Nat) : List Encounter :=
  if id ∈ bound then []
  else
    match if mode = .replaceAll then Δ.value? id else none with
    | some value => nested bound value
    | none => [⟨id, false⟩]

/-- What is met in a call: first what is met in the argument. -/
def encountersCall (name : Nat) (argument : List Encounter) : List Encounter :=
  argument.map (fun x => ⟨x.id, true⟩) ++
    match Δ.function? name with
    | none => []
    | some (parameter, body) => nested (parameter.toList ++ bound) body

mutual

/-- The symbols that unfolding an expression meets; `nested` lists those that are met in the values
and bodies of definitions. -/
def encountersWith : Expression → List Encounter
  | symbol id => encountersSymbol Δ mode nested bound id
  | sum args | product args | apply _ args => encountersAllWith args
  | power a b | quotient a b => encountersWith a ++ encountersWith b
  | opposite a => encountersWith a
  | call name a => encountersCall Δ nested bound name (encountersWith a)
  | _ => []

/-- The symbols that unfolding the members of a list meets. -/
def encountersAllWith : List Expression → List Encounter
  | [] => []
  | e :: es => encountersWith e ++ encountersAllWith es

end

end

/-- The symbols met with definitions nested at most `depth` deep. -/
def encountersAt (Δ : Definitions) (mode : Mode) : Nat → List Nat → Expression → List Encounter
  | 0 => encountersWith Δ mode fun _ _ => []
  | depth + 1 => encountersWith Δ mode (encountersAt Δ mode depth)

/-- The symbols that unfolding an expression meets and leaves, in order. -/
def encounters (Δ : Definitions) (mode : Mode) (e : Expression) : List Encounter :=
  encountersAt Δ mode maxSubstitutionDepth [] e

theorem encountersAllWith_eq_flatMap (nested : List Nat → Expression → List Encounter)
    (bound : List Nat) (es : List Expression) :
    encountersAllWith Δ mode nested bound es = es.flatMap (encountersWith Δ mode nested bound) := by
  induction es with
  | nil => rfl
  | cons e es ih => rw [encountersAllWith, List.flatMap_cons, ih]

theorem encountersWith_of_isRegular (nested : List Nat → Expression → List Encounter)
    (bound : List Nat) {e : Expression} (he : e.isRegular = true) :
    encountersWith Δ mode nested bound e =
      e.operands.flatMap (encountersWith Δ mode nested bound) := by
  cases e with
  | symbol | call | matrix => cases he
  | sum args | product args | apply code args => exact encountersAllWith_eq_flatMap ..
  | _ => simp [encountersWith, operands]

/-! ### What becomes of what is met -/

/-- The symbols of what an expression unfolds to have been met or come with a parameter in scope, and
what has been met stays, unless it stands in the argument of a call. -/
structure Traces (unfolded : Arguments → Expression → Except Obstacle Expression)
    (met : List Nat → Expression → List Encounter) : Prop where
  origin : ∀ {scope e t}, unfolded scope e = .ok t → ∀ {id}, (symbol id).Within t →
    (∃ x ∈ met (scope.map Prod.fst) e, x.id = id) ∨ ∃ p ∈ scope, (symbol id).Within p.2
  stays : ∀ {scope e t}, unfolded scope e = .ok t → ∀ {id},
    ⟨id, false⟩ ∈ met (scope.map Prod.fst) e → (symbol id).Within t

theorem symbol_within_symbol {id id' : Nat} : (symbol id).Within (symbol id') ↔ id = id' := by
  rw [within_iff]
  simp [operands]

theorem lookup_cases (scope : Arguments) (id : Nat) :
    (∃ e, scope.lookup id = some e ∧ (id, e) ∈ scope ∧ id ∈ scope.map Prod.fst) ∨
      scope.lookup id = none ∧ id ∉ scope.map Prod.fst := by
  rcases hlookup : scope.lookup id with - | e
  · refine .inr ⟨rfl, fun hmem => ?_⟩
    obtain ⟨p, hp, rfl⟩ := List.mem_map.1 hmem
    exact absurd rfl (bne_iff_ne.1 (List.lookup_eq_none_iff.1 hlookup p hp))
  · obtain ⟨l₁, l₂, rfl, -⟩ := List.lookup_eq_some_iff.1 hlookup
    exact .inl ⟨e, rfl, by simp, by simp⟩

section Traces

variable {unfolded : Arguments → Expression → Except Obstacle Expression}
  {scope : Arguments} (met : List Nat → Expression → List Encounter)

/-- A symbol is taken for a parameter, replaced by its value, or left as it is. -/
theorem unfoldSymbol_cases {id : Nat} {t : Expression}
    (h : unfoldSymbol Δ mode unfolded scope id = .ok t) :
    ((id, t) ∈ scope ∧ encountersSymbol Δ mode met (scope.map Prod.fst) id = []) ∨
      (∃ v, mode = .replaceAll ∧ id ∉ scope.map Prod.fst ∧ Δ.value? id = some v ∧
        unfolded scope v = .ok t ∧
        encountersSymbol Δ mode met (scope.map Prod.fst) id = met (scope.map Prod.fst) v) ∨
      (t = symbol id ∧ id ∉ scope.map Prod.fst ∧ (mode = .replaceAll → Δ.value? id = none) ∧
        encountersSymbol Δ mode met (scope.map Prod.fst) id = [⟨id, false⟩]) := by
  unfold unfoldSymbol at h
  rcases lookup_cases scope id with ⟨e, hlookup, hmem, hbound⟩ | ⟨hlookup, hbound⟩ <;>
    rw [hlookup] at h
  · exact .inl ⟨Except.ok.inj h ▸ hmem, if_pos hbound⟩
  · unfold encountersSymbol
    rw [if_neg hbound]
    rcases hvalue : (if mode = .replaceAll then Δ.value? id else none) with - | v <;>
      rw [hvalue] at h
    · refine .inr (.inr ⟨(Except.ok.inj h).symm, hbound, fun hmode => ?_, rfl⟩)
      rwa [if_pos hmode] at hvalue
    · obtain ⟨hmode, hv⟩ := Option.ite_none_right_eq_some.1 hvalue
      exact .inr (.inl ⟨v, hmode, hbound, hv, h, rfl⟩)

/-- A call unfolds to what the body does, with the argument in scope. -/
theorem unfoldCall_eq_ok_iff {name : Nat} {v t : Expression} :
    unfoldCall Δ unfolded scope name v = .ok t ↔ ∃ parameter body,
      Δ.function? name = some (parameter, body) ∧
        unfolded (parameter.toList.map (·, v) ++ scope) body = .ok t := by
  unfold unfoldCall
  rcases Δ.function? name with - | ⟨parameter, body⟩
  · simp
  · simp

theorem map_fst_scope (parameter : Option Nat) (v : Expression) (scope : Arguments) :
    (parameter.toList.map (·, v) ++ scope).map Prod.fst =
      parameter.toList ++ scope.map Prod.fst := by
  cases parameter <;> rfl

variable {met} in
theorem Traces.unfoldWith (h : Traces unfolded met) :
    Traces (unfoldWith Δ mode unfolded) (encountersWith Δ mode met) where
  origin {scope e t} ht := by
    refine unfoldWith_induction (P := fun e t => ∀ {id}, (symbol id).Within t →
      (∃ x ∈ encountersWith Δ mode met (scope.map Prod.fst) e, x.id = id) ∨
        ∃ p ∈ scope, (symbol id).Within p.2) (fun s t ht id hid => ?_)
      (fun name a v t ha _ ht id hid => ?_) (fun e ts he hts id hid => ?_) ht
    · rw [encountersWith]
      rcases unfoldSymbol_cases met ht with ⟨hmem, -⟩ | ⟨v, -, -, -, hv, hmet⟩ |
        ⟨rfl, -, -, hmet⟩
      · exact .inr ⟨_, hmem, hid⟩
      · rw [hmet]
        exact h.origin hv hid
      · rw [hmet]
        exact .inl ⟨_, List.mem_singleton_self _, (symbol_within_symbol.1 hid).symm⟩
    · obtain ⟨parameter, body, hbody, ht⟩ := unfoldCall_eq_ok_iff.1 ht
      rw [encountersWith, encountersCall, hbody]
      rcases h.origin ht hid with ⟨x, hx, hxid⟩ | ⟨p, hp, hpid⟩
      · rw [map_fst_scope] at hx
        exact .inl ⟨x, List.mem_append_right _ hx, hxid⟩
      · rcases List.mem_append.1 hp with hp | hp
        · -- the symbol is one of the argument, which has been unfolded before
          obtain ⟨q, -, rfl⟩ := List.mem_map.1 hp
          refine (ha hpid).imp_left fun ⟨x, hx, hxid⟩ => ⟨⟨x.id, true⟩, ?_, hxid⟩
          exact List.mem_append_left _ (List.mem_map.2 ⟨x, hx, rfl⟩)
        · exact .inr ⟨p, hp, hpid⟩
    · obtain ⟨t, ht, hid⟩ := (symbol_within_rebuild he hts.length_eq.symm).1 hid
      obtain ⟨c, hc, hct⟩ := exists_of_forall₂_right hts ht
      rw [encountersWith_of_isRegular met _ he]
      exact (hct hid).imp_left fun ⟨x, hx, hxid⟩ => ⟨x, List.mem_flatMap.2 ⟨c, hc, hx⟩, hxid⟩
  stays {scope e t} ht := by
    refine unfoldWith_induction (P := fun e t => ∀ {id},
      ⟨id, false⟩ ∈ encountersWith Δ mode met (scope.map Prod.fst) e → (symbol id).Within t)
      (fun s t ht id hid => ?_) (fun name a v t _ _ ht id hid => ?_)
      (fun e ts he hts id hid => ?_) ht
    · rw [encountersWith] at hid
      rcases unfoldSymbol_cases met ht with ⟨-, hmet⟩ | ⟨v, -, -, -, hv, hmet⟩ |
        ⟨rfl, -, -, hmet⟩ <;> rw [hmet] at hid
      · cases hid
      · exact h.stays hv hid
      · cases List.mem_singleton.1 hid
        exact .self
    · obtain ⟨parameter, body, hbody, ht⟩ := unfoldCall_eq_ok_iff.1 ht
      rw [encountersWith, encountersCall, hbody] at hid
      rcases List.mem_append.1 hid with hid | hid
      · -- what is met in the argument is marked
        obtain ⟨x, -, hx⟩ := List.mem_map.1 hid
        cases hx
      · exact h.stays ht (map_fst_scope parameter v scope ▸ hid)
    · rw [encountersWith_of_isRegular met _ he] at hid
      obtain ⟨c, hc, hid⟩ := List.mem_flatMap.1 hid
      obtain ⟨t, ht, hct⟩ := exists_of_forall₂_left hts hc
      exact (symbol_within_rebuild he hts.length_eq.symm).2 ⟨t, ht, hct hid⟩

theorem traces_unfoldAt (depth : Nat) :
    Traces (unfoldAt Δ mode depth) (encountersAt Δ mode depth) := by
  induction depth with
  | zero => exact Traces.unfoldWith ⟨nofun, nofun⟩
  | succ depth ih => exact ih.unfoldWith

end Traces

theorem mem_collectSymbols {known : List Nat} {e : Expression} {id : Nat} :
    id ∈ e.collectSymbols known ↔ id ∈ known ∨ (symbol id).Within e := by
  induction e using induction_on_operands generalizing known with
  | h e ih =>
    have hall : ∀ {es : List Expression}, (∀ c ∈ es, c ∈ e.operands) → ∀ {known : List Nat},
        id ∈ collectSymbolsOf known es ↔ id ∈ known ∨ ∃ c ∈ es, (symbol id).Within c := by
      intro es hes known
      induction es generalizing known with
      | nil => simp [collectSymbolsOf]
      | cons c es ihes =>
        have ⟨hc, hes⟩ := List.forall_mem_cons.1 hes
        simp only [collectSymbolsOf, ihes hes, ih c hc, List.mem_cons, exists_eq_or_imp, or_assoc]
    rw [within_iff]
    cases e with
    | symbol id' =>
      simp only [collectSymbols, List.contains_iff_mem, operands]
      split <;> simp_all
    | sum | product | apply | matrix | power | quotient | opposite | call =>
      have := @hall _ (fun _ hc => hc) known
      simpa [collectSymbols, collectSymbolsOf, operands] using this
    | _ => simp [collectSymbols, operands]

end Expression

/-- Adds the symbols that are new behind those known. -/
def addNew (known ids : List Nat) : List Nat :=
  ids.foldl (fun known id => if known.contains id then known else known ++ [id]) known

theorem addNew_append (known ids ids' : List Nat) :
    addNew known (ids ++ ids') = addNew (addNew known ids) ids' := List.foldl_append

theorem mem_addNew {known ids : List Nat} {id : Nat} :
    id ∈ addNew known ids ↔ id ∈ known ∨ id ∈ ids := by
  induction ids generalizing known with
  | nil => simp [addNew]
  | cons x ids ih =>
    rw [addNew, List.foldl_cons, List.mem_cons]
    refine ih.trans ?_
    split
    · next hx =>
      -- what is known already is not added again
      rw [List.contains_iff_mem] at hx
      constructor
      · exact Or.imp_right .inr
      · rintro (h | rfl | h)
        exacts [.inl h, .inl hx, .inr h]
    · rw [List.mem_append, List.mem_singleton, or_assoc]

namespace ExpandM

variable {α β : Type} {m : ExpandM α} {f : α → ExpandM β} {x : Arena × Encounters}
  {es es' : List Encounter}

/-- Run from `x`, the computation records the encounters if it succeeds. -/
def Notes (m : ExpandM α) (x : Arena × Encounters) (es : List Encounter) : Prop :=
  ∀ a y, m x = (.ok a, y) → y.2.met = addNew x.2.met (es.map Encounter.id) ∧
    ∀ id, id ∈ y.2.arguments ↔ id ∈ x.2.arguments ∨ ⟨id, true⟩ ∈ es

theorem Notes.pure (a : α) : Notes (Pure.pure a) x [] := by
  rintro b y h
  cases h
  simp [addNew]

theorem Notes.throw (e : CanonicalError) : Notes (MonadExcept.throw e : ExpandM α) x es := nofun

theorem Notes.build (m : Build Handle) : Notes (build m) x [] := by
  rintro h y hy
  unfold ExpandM.build at hy
  dsimp only at hy
  rcases hrun : m x.1 with ⟨full | k, B⟩ <;> rw [hrun] at hy <;> cases hy
  simp [addNew]

theorem Notes.bind (hm : Notes m x es) (hf : ∀ a y, m x = (.ok a, y) → Notes (f a) y es') :
    Notes (m >>= f) x (es ++ es') := by
  intro b z hz
  rw [bind_run] at hz
  rcases hrun : m x with ⟨e | a, y⟩ <;> rw [hrun] at hz
  · cases hz
  · obtain ⟨hmet, hargs⟩ := hm a y hrun
    obtain ⟨hmet', hargs'⟩ := hf a y hrun b z hz
    refine ⟨?_, fun id => ?_⟩
    · rw [hmet', hmet, List.map_append, addNew_append]
    · rw [hargs', hargs, List.mem_append, or_assoc]

end ExpandM

namespace Expression

section Records

open ExpandM

variable {Δ : Definitions} {mode : Mode} {names : Symbols} {nested : Parameters → Expression → ExpandM Handle}
  {unfolded : Arguments → Expression → Except Obstacle Expression}
  {met : List Nat → Expression → List Encounter} {arguments : Arguments} {scope : Parameters}
  {x : Arena × Encounters}

/-- The parameters in scope stand for stored expressions, and their symbols are recorded. -/
structure Recorded (names : Symbols) (arguments : Arguments) (scope : Parameters)
    (x : Arena × Encounters) : Prop where
  consistent : x.1.Consistent names
  denotes : DenotesScope arguments scope x.1
  symbols : ∀ p ∈ arguments, ∀ id, (symbol id).Within p.2 → id ∈ x.2.arguments

/-- Run with such parameters in scope, the function records what is met. -/
def Records (names : Symbols) (nested : Parameters → Expression → ExpandM Handle)
    (met : List Nat → Expression → List Encounter) : Prop :=
  ∀ arguments scope e x, Recorded names arguments scope x → e.IdentifiersIn names.IsNumber →
    Notes (nested scope e) x (met (arguments.map Prod.fst) e)

/-- What is computed and recorded leaves the parameters in scope as they are. -/
theorem Recorded.after {α β : Type} {m : ExpandM α} {r : Except Obstacle β}
    {Q : β → α → Arena → Prop} {es : List Encounter} (hx : Recorded names arguments scope x)
    (hm : Computes names m x r Q) (hnotes : Notes m x es) {a : α} {y : Arena × Encounters}
    (hrun : m x = (.ok a, y)) : Recorded names arguments scope y ∧ ∃ b, r = .ok b ∧ Q b a y.1 := by
  obtain ⟨hgrows, hkeeps, hresult⟩ := hm.yields
  rw [hrun] at hgrows hkeeps hresult
  refine ⟨⟨hkeeps, hx.denotes.grow hgrows, fun p hp id hid => ?_⟩, hresult a rfl⟩
  exact ((hnotes a y hrun).2 id).2 (.inl (hx.symbols p hp id hid))

theorem expandSymbol_notes (hrecords : Records names nested met)
    (hΔ : Δ.IdentifiersIn names.IsNumber) (hx : Recorded names arguments scope x) (id : Nat) :
    Notes (expandSymbol Δ mode nested scope id) x
      (encountersSymbol Δ mode met (arguments.map Prod.fst) id) := by
  have hlookup := hx.denotes.lookup id
  unfold expandSymbol encountersSymbol
  rcases lookup_cases arguments id with ⟨e, he, -, hbound⟩ | ⟨he, hbound⟩ <;>
    rcases hk : scope.lookup id with - | k <;> rw [he, hk] at hlookup <;> cases hlookup
  · rw [if_pos hbound]
    exact .pure k
  · rw [if_neg hbound]
    rcases hvalue : (if mode = .replaceAll then Δ.value? id else none) with - | v
    · have hmeet : Notes (meet id) x [⟨id, false⟩] := by
        rintro a y h
        cases h
        simp only [addNew, List.map_cons, List.map_nil, List.foldl_cons, List.foldl_nil]
        split <;> simp
      exact hmeet.bind fun _ _ _ => .build _
    · obtain ⟨-, hv⟩ := Option.ite_none_right_eq_some.1 hvalue
      exact hrecords arguments scope v x hx (hΔ.value id v hv)

/-- Recording the symbols of an argument records what has been met in it. -/
theorem notes_dependOn {α : Type} {m : ExpandM Handle} {f : Handle → ExpandM α}
    {es es' : List Encounter} (hm : Notes m x es)
    (hargument : ∀ k y, m x = (.ok k, y) → ∀ id,
      id ∈ y.2.arguments ∨ (symbol id).Within (y.1.expression k) ↔
        id ∈ x.2.arguments ∨ ∃ e ∈ es, e.id = id)
    (hf : ∀ k y, m x = (.ok k, y) → Notes (f k) (y.1, { y.2 with
      arguments := (y.1.expression k).collectSymbols y.2.arguments }) es') :
    Notes (m >>= fun k => ExpandM.dependOn k >>= fun _ => f k) x
      (es.map (fun x => ⟨x.id, true⟩) ++ es') := by
  intro b z hz
  rw [bind_run] at hz
  rcases hrun : m x with ⟨e | k, y⟩ <;> rw [hrun] at hz
  · cases hz
  · obtain ⟨hmet, -⟩ := hm k y hrun
    obtain ⟨hmet', hargs'⟩ := hf k y hrun b z hz
    refine ⟨?_, fun id => ?_⟩
    · rw [hmet', hmet, List.map_append, List.map_map, addNew_append]
      rfl
    · rw [hargs', mem_collectSymbols, hargument k y hrun id, List.mem_append, List.mem_map, or_assoc]
      simp

theorem IdentifiersIn.operand {S : Nat → Prop} {e c : Expression} (he : e.IdentifiersIn S)
    (hc : c ∈ e.operands) : c.IdentifiersIn S := by
  cases e <;> simp only [operands, List.not_mem_nil, List.mem_cons, or_false] at hc
  case sum => exact identifiersIn_sum.1 he c hc
  case product => exact identifiersIn_product.1 he c hc
  case apply => exact identifiersIn_apply.1 he c hc
  case matrix => exact identifiersIn_matrix.1 he c hc
  case power => exact hc.elim (· ▸ (identifiersIn_power.1 he).1) (· ▸ (identifiersIn_power.1 he).2)
  case quotient =>
    exact hc.elim (· ▸ (identifiersIn_quotient.1 he).1) (· ▸ (identifiersIn_quotient.1 he).2)
  case opposite => exact hc ▸ identifiersIn_opposite.1 he
  case call => exact hc ▸ (identifiersIn_call.1 he).2

variable (hfollows : Follows names nested unfolded) (htraces : Traces unfolded met)
  (hrecords : Records names nested met) (hΔ : Δ.IdentifiersIn names.IsNumber)

include hfollows hΔ in
theorem expandAllWith_notes {es : List Expression}
    (hes : ∀ e ∈ es, ∀ x, Recorded names arguments scope x →
      Notes (expandWith Δ mode nested scope e) x
        (encountersWith Δ mode met (arguments.map Prod.fst) e))
    (hx : Recorded names arguments scope x) (hid : ∀ e ∈ es, e.IdentifiersIn names.IsNumber) :
    Notes (expandAllWith Δ mode nested scope es) x
      (es.flatMap (encountersWith Δ mode met (arguments.map Prod.fst))) := by
  induction es generalizing x with
  | nil => exact .pure _
  | cons e es ih =>
    obtain ⟨he, hes⟩ := List.forall_mem_cons.1 hes
    obtain ⟨hide, hid⟩ := List.forall_mem_cons.1 hid
    have hnotes := he x hx
    have hcomputes : ExpandM.Computes names (expandWith Δ mode nested scope e) x _ Denotes :=
      expandWith_computes hfollows hΔ hx.denotes hx.consistent hide
    rw [expandAllWith, List.flatMap_cons]
    refine hnotes.bind fun h y hrun => ?_
    have hy := (hx.after hcomputes hnotes hrun).1
    have hrest : Notes _ y (_ ++ []) := (ih hes hy hid).bind fun hs _ _ => .pure (h :: hs)
    rwa [List.append_nil] at hrest

include hfollows htraces hrecords hΔ in
/-- Expanding an expression records what is met in it. -/
theorem expandWith_notes : Records names (expandWith Δ mode nested) (encountersWith Δ mode met) := by
  intro arguments scope e x hx hid
  induction e using induction_on_operands generalizing x with
  | h e ih =>
    by_cases he : e.isRegular = true
    · rw [expandWith_of_isRegular he, encountersWith_of_isRegular met _ he]
      have hoperands : Notes (expandAllWith Δ mode nested scope e.operands) x _ :=
        expandAllWith_notes hfollows hΔ (fun c hc x hx => ih c hc x hx (hid.operand hc)) hx fun c hc => hid.operand hc
      have : Notes _ x (_ ++ []) := hoperands.bind fun hs _ _ => .build (e.construct hs)
      rwa [List.append_nil] at this
    · cases e with
      | symbol id => exact expandSymbol_notes hrecords hΔ hx id
      | matrix => exact .throw _
      | call name a =>
        have ha := hid.operand (c := a) List.mem_cons_self
        have hnotes := ih a List.mem_cons_self x hx ha
        have hcomputes : ExpandM.Computes names (expandWith Δ mode nested scope a) x _ Denotes :=
          expandWith_computes hfollows hΔ hx.denotes hx.consistent ha
        refine notes_dependOn hnotes (fun k y hrun id => ?_) fun k y hrun => ?_
        · obtain ⟨hy, v, hv, hk⟩ := hx.after hcomputes hnotes hrun
          rw [hk.expression_eq, (hnotes k y hrun).2 id]
          constructor
          · rintro ((h | h) | h)
            · exact .inl h
            · exact .inr ⟨_, h, rfl⟩
            · rcases htraces.unfoldWith.origin hv h with h | ⟨p, hp, h⟩
              · exact .inr h
              · exact .inl (hx.symbols p hp id h)
          · rintro (h | ⟨⟨id', inside⟩, h, rfl⟩)
            · exact .inl (.inl h)
            · cases inside
              · exact .inr (htraces.unfoldWith.stays hv h)
              · exact .inl (.inr h)
        · obtain ⟨hy, v, -, hk⟩ := hx.after hcomputes hnotes hrun
          have hexpression := hk.expression_eq
          rcases hbody : Δ.function? name with - | ⟨parameter, body⟩
          · exact .throw _
          · -- the symbols of the argument have just been recorded
            have hsymbols : ∀ p ∈ parameter.toList.map (·, v) ++ arguments, ∀ id,
                (symbol id).Within p.2 → id ∈ v.collectSymbols y.2.arguments := by
              intro p hp id hid
              rcases List.mem_append.1 hp with hp | hp
              · obtain ⟨q, -, rfl⟩ := List.mem_map.1 hp
                exact mem_collectSymbols.2 (.inr hid)
              · exact mem_collectSymbols.2 (.inl (hy.symbols p hp id hid))
            rw [hexpression]
            cases parameter with
            | none =>
              exact hrecords arguments scope body _ ⟨hy.consistent, hy.denotes, hsymbols⟩
                (hΔ.body _ _ hbody)
            | some parameter =>
              exact hrecords ((parameter, v) :: arguments) ((parameter, k) :: scope) body _
                ⟨hy.consistent, .cons ⟨rfl, hk⟩ hy.denotes, hsymbols⟩ (hΔ.body _ _ hbody)
      | _ => exact absurd rfl he

theorem records_expandAt (hΔ : Δ.IdentifiersIn names.IsNumber) (depth : Nat) :
    Records names (expandAt Δ mode depth) (encountersAt Δ mode depth) := by
  induction depth with
  | zero =>
    have hthrow : Follows names (fun _ _ => throw .undefined) fun _ _ => .error .depth :=
      fun _ _ _ _ _ hx _ => .throw hx .depth
    exact expandWith_notes hthrow ⟨nofun, nofun⟩ (fun _ _ _ _ _ _ => .throw _) hΔ
  | succ depth ih => exact expandWith_notes (follows_expandAt hΔ depth) (traces_unfoldAt depth) ih hΔ

/-- Expanding an expression, if it succeeds, records the symbols that are met, each where it is met
first, and those that are met in the arguments of calls. -/
theorem expand_records (mode : Mode) (hΔ : Δ.IdentifiersIn names.IsNumber) {A B : Arena}
    (hA : A.Consistent names) {e : Expression} (he : e.IdentifiersIn names.IsNumber) {k : Handle}
    {s : Encounters} (hrun : e.expand Δ mode (A, {}) = (.ok k, (B, s))) :
    s.met = addNew [] ((e.encounters Δ mode).map Encounter.id) ∧
      ∀ id, id ∈ s.arguments ↔ ⟨id, true⟩ ∈ e.encounters Δ mode := by
  have h := records_expandAt hΔ _ [] [] e (A, {}) ⟨hA, .nil, nofun⟩ he k (B, s) hrun
  simpa [encounters] using h

end Records

end Expression

end Resolvent

import Resolvent.Form.Coefficients
import Resolvent.Proofs.Expression.Along
import Resolvent.Proofs.Form.Laws
import Resolvent.Proofs.Form.Reachable
import Resolvent.Proofs.Form.Settled
import Resolvent.Proofs.Form.Stability
import Resolvent.Proofs.Form.Symbols
import Resolvent.Proofs.Form.Terms
import Resolvent.Proofs.Form.Vector

/-!
# Linear equations read off forms

A settled monomial is the product of what is left of it without a symbol and the power of the symbol
in it (`Form.mul_ofTerm_without`).  So terms from which an unknown was taken out, and which were
distributed over coefficients, add up to the form again once the unknown is multiplied back
(`List.sum_map_filter_eq`, `Form.vector_mul_sumAll`).

A term is at the place of an unknown when the unknown is one of its factors, with the exponent one,
and no other factor mentions any unknown (`Form.linearPlace?_eq_some_some`).  Where each term has a
place, the form is the sum of the unknowns with their coefficients, less the constant
(`Form.linear?_spec`); otherwise some term is not linear in the unknowns
(`Form.linearPlace?_eq_none_iff`).
-/

/-- A list that is distributed over labels has the sum of the sums for each label. -/
theorem List.sum_map_filter_eq {ι α M : Type*} [BEq ι] [LawfulBEq ι] [AddCommMonoid M]
    {labels : List ι} (hnodup : labels.Nodup) {ts : List (ι × α)} (h : ∀ t ∈ ts, t.1 ∈ labels)
    (v : ι × α → M) :
    (labels.map fun l => ((ts.filter fun t => t.1 == l).map v).sum).sum = (ts.map v).sum := by
  have : DecidableEq ι := instDecidableEqOfLawfulBEq
  induction ts with
  | nil => simp
  | cons t ts ih =>
    have hsplit : ∀ l, (((t :: ts).filter fun t => t.1 == l).map v).sum =
        (if t.1 = l then v t else 0) + ((ts.filter fun t => t.1 == l).map v).sum := by
      intro l
      by_cases hl : t.1 = l <;> simp [hl]
    have hone : (labels.map fun l => if t.1 = l then v t else 0).sum = v t := by
      rw [← List.sum_toFinset _ hnodup, Finset.sum_ite_eq,
        if_pos (List.mem_toFinset.2 (h t List.mem_cons_self))]
    simp only [hsplit, List.sum_map_add, hone, ih fun s hs => h s (List.mem_cons_of_mem _ hs),
      List.map_cons, List.sum_cons]

/-- Members with their labels, where each has one. -/
theorem List.mapM_label {α ι : Type*} {label : α → Option ι} {ts : List α} {ls : List (ι × α)}
    (h : ts.mapM (fun t => (label t).map fun l => (l, t)) = some ls) :
    ls.map Prod.snd = ts ∧ ∀ t ∈ ls, label t.2 = some t.1 := by
  induction ts generalizing ls with
  | nil =>
    cases h
    exact ⟨rfl, List.forall_mem_nil _⟩
  | cons t ts ih =>
    rw [List.mapM_cons] at h
    obtain ⟨x, hx, h⟩ := Option.bind_eq_some_iff.1 h
    obtain ⟨xs, hxs, h⟩ := Option.bind_eq_some_iff.1 h
    obtain ⟨l, hl, rfl⟩ := Option.map_eq_some_iff.1 hx
    cases h
    obtain ⟨hsnd, hlabels⟩ := ih hxs
    exact ⟨by rw [List.map_cons, hsnd], List.forall_mem_cons.2 ⟨hl, hlabels⟩⟩

theorem List.mapM_label_eq_none_iff {α ι : Type*} {label : α → Option ι} {ts : List α} :
    ts.mapM (fun t => (label t).map fun l => (l, t)) = none ↔ ∃ t ∈ ts, label t = none := by
  induction ts with
  | nil => simp
  | cons t ts ih =>
    rw [List.exists_mem_cons_iff, ← ih, List.mapM_cons]
    rcases label t with - | l
    · simp
    · rcases ts.mapM fun t => (label t).map fun l => (l, t) with - | ls <;> simp

namespace Resolvent

open Finsupp (single)

/-- Other forms are nested in the atom. -/
def Atom.IsCompound : Atom → Prop
  | .radical _ _ | .apply _ _ | .power _ _ | .reciprocal _ => True
  | _ => False

/-- A symbol occurs in itself and in what it is nested in. -/
theorem Atom.mentions_iff {a : Atom} {id : Nat} :
    a.mentions id = true ↔ a = .symbol id ∨ a.IsCompound ∧ a.mentions id = true := by
  cases a <;> simp [IsCompound, mentions]

namespace Monomial

variable {m : Monomial} {a : Atom} {k : Int} {id : Nat}

theorem mem_without {x : Atom × Int} : x ∈ (m.without a).factors ↔ x ∈ m.factors ∧ x.1 ≠ a := by
  simp [without]

theorem mentions_eq_false_iff :
    m.mentions id = false ↔ ∀ x ∈ m.factors, x.1.mentions id = false := by
  obtain ⟨factors⟩ := m
  rw [← Bool.not_eq_true, mentions, factorsMention_iff]
  simp

theorem without_of_forall_ne (h : ∀ x ∈ m.factors, x.1 ≠ a) : m.without a = m := by
  obtain ⟨factors⟩ := m
  exact congrArg Monomial.mk (List.filter_eq_self.2 fun x hx => decide_eq_true (h x hx))

theorem eq_of_mem_of_sorted {l : Int} (hm : Sorted m.factors) (hk : (a, k) ∈ m.factors)
    (hl : (a, l) ∈ m.factors) : k = l :=
  (exponentSum_eq_of_mem hm.pairwise_ne hk).symm.trans (exponentSum_eq_of_mem hm.pairwise_ne hl)

theorem exponentOf_of_mem (hm : Sorted m.factors) (h : (a, k) ∈ m.factors) :
    m.exponentOf a = k := by
  unfold exponentOf
  split
  · next b l hfind =>
    have hb : b = a := by simpa using List.find?_some hfind
    exact eq_of_mem_of_sorted hm (hb ▸ List.mem_of_find?_eq_some hfind) h
  · next hfind => exact absurd (List.find?_eq_none.1 hfind _ h) (by simp)

theorem perm_without (hm : Sorted m.factors) (h : (a, k) ∈ m.factors) :
    ((m.without a).factors ++ [(a, k)]).Perm m.factors := by
  have hnodup : m.factors.Nodup := hm.pairwise_ne.imp fun hne heq => hne (congrArg Prod.fst heq)
  have hpart : m.factors.filter (fun x => !decide (x.1 ≠ a)) = [(a, k)] := by
    refine List.perm_singleton.1 ((List.perm_ext_iff_of_nodup (hnodup.filter _)
      (List.nodup_singleton _)).2 fun x => ?_)
    rw [List.mem_filter, List.mem_singleton]
    constructor
    · rintro ⟨hx, hxa⟩
      obtain ⟨b, l⟩ := x
      obtain rfl : b = a := by simpa using hxa
      rw [eq_of_mem_of_sorted hm hx h]
    · rintro rfl
      exact ⟨h, by simp⟩
  have hperm := List.filter_append_perm (fun x : Atom × Int => decide (x.1 ≠ a)) m.factors
  rwa [hpart] at hperm

end Monomial

namespace Form

variable {m : Monomial} {a : Atom} {k : Int} {id : Nat}

/-- A settled monomial is what is left of it without an atom, times the power of the atom. -/
theorem mul_ofTerm_without (hm : m.Settled) (h : (a, k) ∈ m.factors) (c : Rat) :
    mul (ofTerm (m.without a) c) (ofTerm ⟨[(a, k)]⟩ 1) = ofTerm m c := by
  obtain ⟨factors⟩ := m
  have hmul := mul_ofTerm (hm.without a).arranged.sorted (List.pairwise_singleton _ _) hm
    (Monomial.perm_without hm.arranged.sorted h) c 1
  rwa [Rat.mul_one] at hmul

/-- The product with a sum is the sum of the products. -/
theorem vector_mul_sumAll (fs : List Form) (g : Form) :
    (mul (sumAll fs) g).vector = (fs.map fun f => (mul f g).vector).sum := by
  have hsum := map_list_sum ((vectorProduct ofFactors).flip g.vector) (fs.map vector)
  simp only [vector_mul, vector_sumAll]
  simpa [Function.comp_def] using hsum

variable {ι : Type*} {f : Form} {ts : List (ι × Monomial × Rat)}

/-- Terms from which an atom was taken out, once a form is multiplied to them that brings it back. -/
theorem vector_mul_coefficient {g : Form}
    (h : ∀ t ∈ ts, mul (ofTerm (t.2.1.without a) t.2.2) g = ofTerm t.2.1 t.2.2) :
    (mul (sumAll (ts.map fun t => ofTerm (t.2.1.without a) t.2.2)) g).vector =
      (ts.map fun t => single t.2.1 t.2.2).sum := by
  rw [vector_mul_sumAll, List.map_map]
  congr 1
  refine List.map_congr_left fun t ht => ?_
  rw [Function.comp_apply, h t ht, vector_ofTerm]

/-- A form is the sum of its terms, which may be distributed over labels. -/
theorem vector_eq_sum_labels [BEq ι] [LawfulBEq ι] (h : ts.map Prod.snd = f.terms)
    {labels : List ι} (hnodup : labels.Nodup) (hmem : ∀ t ∈ ts, t.1 ∈ labels) :
    f.vector = (labels.map fun l =>
      ((ts.filter fun t => t.1 == l).map fun t => single t.2.1 t.2.2).sum).sum := by
  rw [List.sum_map_filter_eq hnodup hmem (fun t => single t.2.1 t.2.2), vector, termsVector, ← h,
    List.map_map]
  rfl

theorem Ordered.sumAll {fs : List Form} (h : ∀ f ∈ fs, f.Ordered) : (Form.sumAll fs).Ordered :=
  sumAll_of_closed Ordered.zero (fun _ _ => Ordered.add) h

theorem mentions_sumAll_eq_false {u : Nat} {gs : List Form}
    (h : ∀ g ∈ gs, g.mentions u = false) : (sumAll gs).mentions u = false := by
  have hsymbols : (sumAll gs).SymbolsIn (· ≠ u) := symbolsIn_sumAll fun g hg id hid heq => by
    rw [heq, h g hg] at hid
    cases hid
  exact Bool.eq_false_iff.2 fun hmentions => hsymbols u hmentions rfl

theorem mentions_ofTerm_eq_false {u : Nat} (h : m.mentions u = false) (q : Rat) :
    (ofTerm m q).mentions u = false := by
  have hfactors : ∀ x ∈ m.factors, x.1.SymbolsIn (· ≠ u) := fun x hx id hid heq => by
    rw [heq, Monomial.mentions_eq_false_iff.1 h x hx] at hid
    cases hid
  have hsymbols := symbolsIn_ofTerm hfactors q
  exact Bool.eq_false_iff.2 fun hmentions => hsymbols u hmentions rfl

end Form

end Resolvent

/-! ## Linear equations read off forms -/

namespace Resolvent

/-- The monomial is not linear in the unknowns: it has one of them with an exponent other than one,
it has two of them, or one of them is nested in an atom. -/
def Monomial.IsNonlinear (unknowns : List Nat) (m : Monomial) : Prop :=
  (∃ u ∈ unknowns, ∃ k, (.symbol u, k) ∈ m.factors ∧ k ≠ 1) ∨
  (∃ u ∈ unknowns, ∃ w ∈ unknowns, u ≠ w ∧
    (∃ k, (.symbol u, k) ∈ m.factors) ∧ ∃ k, (.symbol w, k) ∈ m.factors) ∨
  ∃ u ∈ unknowns, ∃ x ∈ m.factors, x.1.IsCompound ∧ x.1.mentions u = true

namespace Form

variable {unknowns : List Nat} {a : Atom} {i : Nat}

/-! ### Places -/

theorem placeIn_eq_none_iff :
    placeIn unknowns a = none ↔ ∀ u ∈ unknowns, a.mentions u = false :=
  List.findIdx?_eq_none_iff

theorem exists_of_placeIn (h : placeIn unknowns a = some i) :
    ∃ u, unknowns[i]? = some u ∧ a.mentions u = true := by
  obtain ⟨hi, hmentions, -⟩ := List.findIdx?_eq_some_iff_getElem.1 h
  exact ⟨unknowns[i], List.getElem?_eq_getElem hi, hmentions⟩

theorem mentions_symbol {u w : Nat} : (Atom.symbol u).mentions w = true ↔ u = w := by
  simp [Atom.mentions]

variable {factors : List (Atom × Int)}

/-- A product has no place where it mentions no unknown. -/
theorem linearPlace?_eq_some_none : linearPlace? unknowns factors = some none ↔
    ∀ x ∈ factors, ∀ u ∈ unknowns, x.1.mentions u = false := by
  induction factors with
  | nil => simp [linearPlace?]
  | cons x factors ih =>
    obtain ⟨a, k⟩ := x
    rw [List.forall_mem_cons, ← ih, ← placeIn_eq_none_iff, linearPlace?]
    rcases placeIn unknowns a with - | i
    · simp
    · refine iff_of_false (fun h => ?_) fun h => by cases h.1
      split at h
      · next hnone => cases hnone
      · split at h
        · split at h <;> cases h
        · cases h
      · cases h

/-- The place of a product is that of an unknown with the exponent one, and the other factors mention
no unknown. -/
theorem linearPlace?_eq_some_some (h : linearPlace? unknowns factors = some (some i)) :
    ∃ u, unknowns[i]? = some u ∧ (.symbol u, 1) ∈ factors ∧
      ∀ x ∈ factors, x ≠ (.symbol u, 1) → ∀ w ∈ unknowns, x.1.mentions w = false := by
  induction factors with
  | nil => cases h
  | cons x factors ih =>
    obtain ⟨a, k⟩ := x
    rw [linearPlace?] at h
    split at h
    · next hplace =>
      obtain ⟨u, hu, hmem, hrest⟩ := ih h
      refine ⟨u, hu, List.mem_cons_of_mem _ hmem, List.forall_mem_cons.2 ⟨fun _ => ?_, hrest⟩⟩
      exact placeIn_eq_none_iff.1 hplace
    · next j hplace hnone =>
      split at h
      · next id =>
        split at h
        · next hone =>
          obtain ⟨rfl, -⟩ := hone
          obtain rfl : j = i := by simpa using h
          obtain ⟨u, hu, hmentions⟩ := exists_of_placeIn hplace
          obtain rfl := mentions_symbol.1 hmentions
          exact ⟨id, hu, List.mem_cons_self, List.forall_mem_cons.2
            ⟨fun hne => absurd rfl hne, fun x hx _ => linearPlace?_eq_some_none.1 hnone x hx⟩⟩
        · cases h
      · cases h
    · cases h

/-- An unknown stands once in a list of distinct ones. -/
theorem count_eq_one {u : Nat} (hnodup : unknowns.Nodup) (hu : u ∈ unknowns) :
    (unknowns.filter fun w => w == u).length = 1 := by
  rw [← List.countP_eq_length_filter]
  exact List.count_eq_one_of_mem hnodup hu

/-- A product without a place is not linear. -/
theorem isNonlinear_of_linearPlace? (hnodup : unknowns.Nodup)
    (hpairwise : factors.Pairwise fun x y => x.1 ≠ y.1)
    (h : linearPlace? unknowns factors = none) : Monomial.IsNonlinear unknowns ⟨factors⟩ := by
  induction factors with
  | nil => cases h
  | cons x factors ih =>
    obtain ⟨a, k⟩ := x
    obtain ⟨hne, hpairwise⟩ := List.pairwise_cons.1 hpairwise
    -- what is not linear in the other factors is not linear in all of them
    have hrest : linearPlace? unknowns factors = none →
        Monomial.IsNonlinear unknowns ⟨(a, k) :: factors⟩ := by
      intro hnone
      rcases ih hpairwise hnone with ⟨u, hu, l, hl, hone⟩ |
        ⟨u, hu, w, hw, huw, ⟨l, hl⟩, l', hl'⟩ | ⟨u, hu, y, hy, hcompound⟩
      · exact .inl ⟨u, hu, l, List.mem_cons_of_mem _ hl, hone⟩
      · exact .inr (.inl ⟨u, hu, w, hw, huw, ⟨l, List.mem_cons_of_mem _ hl⟩,
          l', List.mem_cons_of_mem _ hl'⟩)
      · exact .inr (.inr ⟨u, hu, y, List.mem_cons_of_mem _ hy, hcompound⟩)
    rw [linearPlace?] at h
    rcases hplace : placeIn unknowns a with - | i
    · rw [hplace] at h
      exact hrest h
    · obtain ⟨u, hu, hmentions⟩ := exists_of_placeIn hplace
      have hmem := List.mem_of_getElem? hu
      rcases Atom.mentions_iff.1 hmentions with rfl | hcompound
      · rcases hplaces : linearPlace? unknowns factors with - | - | j
        · exact hrest hplaces
        · rw [hplace, hplaces] at h
          dsimp only at h
          split at h
          · cases h
          · next hnot =>
            exact .inl ⟨u, hmem, k, List.mem_cons_self,
              fun hone => hnot ⟨hone, count_eq_one hnodup hmem⟩⟩
        · -- another factor is an unknown
          obtain ⟨w, hw, hwmem, -⟩ := linearPlace?_eq_some_some hplaces
          refine .inr (.inl ⟨u, hmem, w, List.mem_of_getElem? hw, ?_, ⟨k, List.mem_cons_self⟩,
            1, List.mem_cons_of_mem _ hwmem⟩)
          rintro rfl
          exact hne _ hwmem rfl
      · exact .inr (.inr ⟨u, hmem, (a, k), List.mem_cons_self, hcompound⟩)

/-- **A product has a place unless it is not linear.** -/
theorem linearPlace?_eq_none_iff (hnodup : unknowns.Nodup)
    (hpairwise : factors.Pairwise fun x y => x.1 ≠ y.1) :
    linearPlace? unknowns factors = none ↔ Monomial.IsNonlinear unknowns ⟨factors⟩ := by
  refine ⟨isNonlinear_of_linearPlace? hnodup hpairwise, fun h => ?_⟩
  rcases hplace : linearPlace? unknowns factors with - | - | i
  · rfl
  · -- no factor mentions an unknown
    have hnone := linearPlace?_eq_some_none.1 hplace
    rcases h with ⟨u, hu, k, hk, -⟩ | ⟨u, hu, -, -, -, ⟨k, hk⟩, -⟩ | ⟨u, hu, x, hx, -, hmentions⟩
    · exact absurd (hnone _ hk u hu) (by simp [Atom.mentions])
    · exact absurd (hnone _ hk u hu) (by simp [Atom.mentions])
    · exact absurd (hnone x hx u hu) (by simp [hmentions])
  · -- the one that does is an unknown with the exponent one
    obtain ⟨z, -, -, hothers⟩ := linearPlace?_eq_some_some hplace
    have hsymbol : ∀ u ∈ unknowns, ∀ k, (.symbol u, k) ∈ factors → u = z ∧ k = 1 := by
      intro u hu k hk
      by_contra hne
      refine absurd (hothers _ hk (fun heq => hne ?_) u hu) (by simp [Atom.mentions])
      obtain ⟨hu, rfl⟩ := Prod.mk.inj heq
      exact ⟨Atom.symbol.inj hu, rfl⟩
    rcases h with ⟨u, hu, k, hk, hone⟩ | ⟨u, hu, w, hw, hne, ⟨k, hk⟩, l, hl⟩ |
      ⟨u, hu, x, hx, hcompound, hmentions⟩
    · exact absurd (hsymbol u hu k hk).2 hone
    · exact absurd ((hsymbol u hu k hk).1.trans (hsymbol w hw l hl).1.symm) hne
    · refine absurd (hothers x hx ?_ u hu) (by simp [hmentions])
      rintro rfl
      exact hcompound

/-! ### The equation -/

variable {f : Form} {e : LinearEquation} {terms : List (Option Nat × Monomial × Rat)}

theorem linear?_eq_none_iff_place : f.linear? unknowns = none ↔
    ∃ t ∈ f.terms, linearPlace? unknowns t.1.factors = none := by
  rw [linear?, Option.map_eq_none_iff, linearTerms?]
  exact List.mapM_label_eq_none_iff

/-- The terms at the place of an unknown, without it, make up its coefficient. -/
def coefficientAt (terms : List (Option Nat × Monomial × Rat)) (i u : Nat) : Form :=
  sumAll ((terms.filter fun t => t.1 == some i).map fun t =>
    ofTerm (t.2.1.without (.symbol u)) t.2.2)

theorem zip_mapIdx {α β : Type*} (g : Nat → α → β) (xs : List α) :
    (xs.mapIdx g).zip xs = xs.zipIdx.map fun x => (g x.2 x.1, x.1) := by
  refine List.ext_getElem (by simp) fun i _ _ => ?_
  simp

/-- The labels of the terms: none, or the place of an unknown. -/
theorem nodup_labels (unknowns : List Nat) :
    (none :: unknowns.zipIdx.map (some ∘ Prod.snd)).Nodup := by
  rw [← List.map_map, List.zipIdx_map_snd]
  refine List.nodup_cons.2 ⟨by simp, (List.nodup_range' 1).map (Option.some_injective Nat)⟩

/-- The terms without an unknown make up the constant, on the other side. -/
theorem vector_constant (ts : List (Option Nat × Monomial × Rat)) :
    (sumAll (ts.map fun t => ofTerm t.2.1 (-t.2.2))).vector =
      -(ts.map fun t => Finsupp.single t.2.1 t.2.2).sum := by
  induction ts with
  | nil => exact vector_sumAll []
  | cons t ts ih =>
    rw [vector_sumAll] at ih ⊢
    rw [List.map_cons, List.map_cons, List.sum_cons, ih, vector_ofTerm, Finsupp.single_neg,
      List.map_cons, List.sum_cons, neg_add]

theorem symbol_eq (u : Nat) : symbol u = ofTerm ⟨[(.symbol u, 1)]⟩ 1 :=
  ofAtom_of_reduced (Monomial.reduced_singleton one_ne_zero (by decide : Width.isInt32 1 = true))

section Spec

variable (hplaces : ∀ t ∈ terms, linearPlace? unknowns t.2.1.factors = some t.1)

include hplaces

theorem mentions_constant {w : Nat} (hw : w ∈ unknowns) :
    (sumAll ((terms.filter fun t => t.1 == none).map fun t =>
      ofTerm t.2.1 (-t.2.2))).mentions w = false := by
  refine mentions_sumAll_eq_false fun g hg => ?_
  obtain ⟨t, ht, rfl⟩ := List.mem_map.1 hg
  obtain ⟨ht, hplace⟩ := List.mem_filter.1 ht
  have hnone := linearPlace?_eq_some_none.1
    ((hplaces t ht).trans (congrArg some (eq_of_beq hplace)))
  exact mentions_ofTerm_eq_false
    (Monomial.mentions_eq_false_iff.2 fun x hx => hnone x hx w hw) _

theorem mentions_coefficientAt {i u w : Nat} (hu : unknowns[i]? = some u) (hw : w ∈ unknowns) :
    (coefficientAt terms i u).mentions w = false := by
  refine mentions_sumAll_eq_false fun g hg => ?_
  obtain ⟨t, ht, rfl⟩ := List.mem_map.1 hg
  obtain ⟨ht, hplace⟩ := List.mem_filter.1 ht
  have hplace := (hplaces t ht).trans (congrArg some (eq_of_beq hplace))
  obtain ⟨z, hz, -, hothers⟩ := linearPlace?_eq_some_some hplace
  obtain rfl := Option.some.inj (hz.symm.trans hu)
  refine mentions_ofTerm_eq_false (Monomial.mentions_eq_false_iff.2 fun x hx => ?_) _
  obtain ⟨hx, hne⟩ := Monomial.mem_without.1 hx
  exact hothers x hx (fun heq => hne (congrArg Prod.fst heq)) w hw

variable (hsettled : f.MonomialsIn Monomial.Settled) (hterms : terms.map Prod.snd = f.terms)

include hsettled hterms

theorem vector_mul_coefficientAt {i u : Nat} (hu : unknowns[i]? = some u) :
    (mul (coefficientAt terms i u) (symbol u)).vector =
      ((terms.filter fun t => t.1 == some i).map fun t => Finsupp.single t.2.1 t.2.2).sum := by
  refine vector_mul_coefficient fun t ht => ?_
  obtain ⟨ht, hplace⟩ := List.mem_filter.1 ht
  have hmem : t.2 ∈ f.terms := hterms ▸ List.mem_map_of_mem ht
  have hplace := (hplaces t ht).trans (congrArg some (eq_of_beq hplace))
  obtain ⟨z, hz, hsymbol, -⟩ := linearPlace?_eq_some_some hplace
  obtain rfl := Option.some.inj (hz.symm.trans hu)
  rw [symbol_eq]
  exact mul_ofTerm_without (hsettled _ hmem) hsymbol _

end Spec

/-- **Linear equations are exact and complete**: a normal form is the sum of the unknowns with the
coefficients that are read off it, less the constant, and none of these mentions an unknown, however
deep.  No equation is read off exactly where some term has an unknown with an exponent other than
one, has two unknowns, or has an unknown nested in an atom. -/
theorem linear?_spec (hf : f.IsNormal) (hmade : f.Constructible) (hnodup : unknowns.Nodup) :
    (∀ e, f.linear? unknowns = some e →
      e.coefficients.length = unknowns.length ∧
      f = sub (sumAll ((e.coefficients.zip unknowns).map fun x => mul x.1 (symbol x.2)))
        e.constant ∧
      ∀ g ∈ e.constant :: e.coefficients, ∀ u ∈ unknowns, g.mentions u = false) ∧
    (f.linear? unknowns = none ↔ ∃ t ∈ f.terms, t.1.IsNonlinear unknowns) := by
  have hsettled := hf.settled hmade
  have hpairwise := fun t ht => (hsettled t ht).arranged.sorted.pairwise_ne
  refine ⟨fun e he => ?_, ?_⟩
  · obtain ⟨terms, hlabels, rfl⟩ := Option.map_eq_some_iff.1 he
    obtain ⟨hterms, hplaces⟩ := List.mapM_label hlabels
    have hmem : ∀ t ∈ terms, t.1 ∈ none :: unknowns.zipIdx.map (some ∘ Prod.snd) := by
      intro t ht
      rcases hplace : t.1 with - | i
      · exact List.mem_cons_self
      · obtain ⟨u, hu, -⟩ := linearPlace?_eq_some_some (hplace ▸ hplaces t ht)
        exact List.mem_cons_of_mem _ (List.mem_map.2 ⟨(u, i), List.mem_zipIdx_iff_getElem?.2 hu, rfl⟩)
    refine ⟨by simp, hmade.ordered.eq_of_vector (.sub (.sumAll fun g hg => ?_)
      (.sumAll fun g hg => ?_)) ?_, fun g hg u hu => ?_⟩
    · obtain ⟨x, -, rfl⟩ := List.mem_map.1 hg
      exact .mul _ _
    · obtain ⟨t, -, rfl⟩ := List.mem_map.1 hg
      exact .ofTerm _ _
    · rw [vector_eq_sum_labels hterms (nodup_labels unknowns) hmem, vector_sub, vector_constant,
        zip_mapIdx, vector_sumAll, List.map_cons, List.sum_cons, List.map_map, List.map_map,
        List.map_map, sub_neg_eq_add, add_comm (List.sum _)]
      congr 2
      refine List.map_congr_left fun x hx => ?_
      have hcoefficient := vector_mul_coefficientAt hplaces hsettled hterms
        (List.mem_zipIdx_iff_getElem?.1 hx)
      exact hcoefficient.symm
    · rcases List.mem_cons.1 hg with rfl | hg
      · exact mentions_constant hplaces hu
      · obtain ⟨i, hi, rfl⟩ := List.mem_mapIdx.1 hg
        exact mentions_coefficientAt hplaces (List.getElem?_eq_getElem hi) hu
  · rw [linear?_eq_none_iff_place]
    exact exists_congr fun t => and_congr_right fun ht =>
      linearPlace?_eq_none_iff hnodup (hpairwise t ht)

/-- A symbolic coefficient: `b a - 2` is read as `b` times `a` being two. -/
theorem linear?_product_sub_two :
    let f := add (mul (symbol 1) (symbol 0)) (ofRat (-2))
    f.IsNormal ∧ f.linear? [0] = some ⟨[symbol 1], ofRat 2⟩ ∧
      f = sub (sumAll [mul (symbol 1) (symbol 0)]) (ofRat 2) := by
  intro f
  have hsymbol : ∀ id, (symbol id).Reachable ∧ (symbol id).Constructible :=
    fun id => ⟨.atom (.symbol id), .ofAtom (.symbol id)⟩
  have hf : f.IsNormal := isNormal_of_reachable
    (.add (.mul (hsymbol 1).1 (hsymbol 0).1) (.rational _))
  have hmade : f.Constructible := .add (.mul (hsymbol 1).2 (hsymbol 0).2) (.ofRat _)
  have hlinear : f.linear? [0] = some ⟨[symbol 1], ofRat 2⟩ := by decide +kernel
  exact ⟨hf, hlinear, ((linear?_spec hf hmade (List.nodup_singleton 0)).1 _ hlinear).2.1⟩

end Form

end Resolvent

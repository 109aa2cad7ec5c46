import Resolvent.Proofs.Expression.Tokens
import Resolvent.Proofs.Form.Chained
import Resolvent.Proofs.Form.RoundTrip
import Resolvent.Proofs.Form.Stored

/-!
# Exponents of products of powers

A power product (`Expression.IsPowerProduct`) is built from symbols by products, quotients and
powers with whole exponents.  Its canonical form is one monomial with coefficient one, whatever the
exponents are.  They are added and multiplied as whole numbers, and each result is stored as the
nearest word of 32 bits (`Expression.storedExponents`).  So they are the exact ones
(`Expression.exponents`) as long as no result on the way leaves the range of a word
(`Expression.ExponentsFit`), which a bound on the absolute values shows
(`Expression.IsPowerProduct.exponentsFit`).  Beyond that range different powers have one form
(`Build.exists_canonical_exponents_ne`).
-/

namespace Resolvent

variable {k l : Nat → Int}

/-! ### Exponents as words -/

/-- Every exponent is a word of 32 bits. -/
def AreWords (k : Nat → Int) : Prop := ∀ id, Width.isInt32 (k id) = true

/-- The words of 32 bits next to the exponents. -/
def nearestWords (k : Nat → Int) (id : Nat) : Int := Width.clamp32 (k id)

theorem AreWords.nearestWords_eq (h : AreWords k) : nearestWords k = k :=
  funext fun id => Form.clamp32_eq (h id)

theorem areWords_nearestWords (k : Nat → Int) : AreWords (nearestWords k) :=
  fun id => Form.isInt32_clamp32 (k id)

theorem areWords_zero : AreWords 0 := fun _ => rfl

theorem areWords_single (id : Nat) : AreWords (Pi.single id 1) := by
  intro j
  rw [Pi.single_apply]
  split <;> rfl

theorem areWords_of_natAbs_le {n : Nat} (hn : n ≤ 2147483647) (h : ∀ id, (k id).natAbs ≤ n) :
    AreWords k := fun id => by
  have := h id
  exact Expression.isInt32_iff.2 (by omega)

/-- Only the least word has an opposite that is no word, and its multiples by negative numbers
exceed the greatest word with and without that opposite. -/
theorem clamp32_mul_clamp32_neg {n a : Int} (hn : n < 0) (ha : Width.isInt32 a = true) :
    Width.clamp32 (Width.clamp32 (-a) * n.natAbs) = Width.clamp32 (n * a) := by
  obtain ⟨hlow, hhigh⟩ := Expression.isInt32_iff.1 ha
  obtain ⟨j, rfl⟩ : ∃ j : Nat, n = -(j + 1) := ⟨n.natAbs - 1, by omega⟩
  have habs : ((-((j : Int) + 1)).natAbs : Int) = j + 1 := by omega
  rw [habs]
  by_cases hleast : a = -2147483648
  · subst hleast
    have hneg : Width.clamp32 (- -2147483648) = 2147483647 := by decide
    rw [hneg]
    unfold Width.clamp32
    split_ifs <;> omega
  · rw [Width.clamp32_of_mem (n := -a) (by omega) (by omega)]
    congr 1
    ring

/-! ### Forms that are powers of symbols -/

/-- The factors are the symbols with exponents other than zero. -/
structure Monomial.HasExponents (m : Monomial) (k : Nat → Int) : Prop where
  /-- The factors are in order. -/
  sorted : Sorted m.factors
  /-- A factor is a symbol with its exponent. -/
  mem_iff : ∀ x, x ∈ m.factors ↔ ∃ id, x = (.symbol id, k id) ∧ k id ≠ 0

/-- The form is a monomial with coefficient one in which the symbols have their exponents. -/
def Form.HasExponents (f : Form) (k : Nat → Int) : Prop :=
  ∃ m : Monomial, f = ⟨[(m, 1)]⟩ ∧ m.HasExponents k

namespace Monomial

variable {m : Monomial}

theorem HasExponents.exponentSum_eq (h : m.HasExponents k) (id : Nat) :
    exponentSum (.symbol id) m.factors = k id := by
  by_cases hid : k id = 0
  · rw [hid]
    refine exponentSum_eq_zero fun x hx heq => ?_
    obtain ⟨j, rfl, hj⟩ := (h.mem_iff x).1 hx
    cases heq
    exact hj hid
  · exact exponentSum_eq_of_mem h.sorted.pairwise_ne ((h.mem_iff _).2 ⟨id, rfl, hid⟩)

theorem HasExponents.exists_symbol (h : m.HasExponents k) {x : Atom × Int} (hx : x ∈ m.factors) :
    ∃ id, x.1 = .symbol id := by
  obtain ⟨id, rfl, -⟩ := (h.mem_iff x).1 hx
  exact ⟨id, rfl⟩

theorem HasExponents.eq_zero_of_isOne (h : m.HasExponents k) (hone : m.isOne = true) : k = 0 := by
  funext id
  rw [← h.exponentSum_eq, List.isEmpty_iff.1 hone]
  rfl

end Monomial

namespace Form

variable {f g : Form}

/-- Forms of powers are equal where the exponents are. -/
theorem HasExponents.eq_iff (hf : f.HasExponents k) (hg : g.HasExponents l) : f = g ↔ k = l := by
  obtain ⟨m, rfl, hm⟩ := hf
  obtain ⟨n, rfl, hn⟩ := hg
  constructor
  · intro h
    obtain rfl : m = n := by simpa using h
    exact funext fun id => (hm.exponentSum_eq id).symm.trans (hn.exponentSum_eq id)
  · rintro rfl
    have hfactors : m.factors = n.factors := Monomial.eq_of_sorted hm.sorted hn.sorted fun x =>
      (hm.mem_iff x).trans (hn.mem_iff x).symm
    cases m
    cases n
    cases hfactors
    rfl

theorem HasExponents.isZero (h : f.HasExponents k) : f.isZero = false := by
  obtain ⟨m, rfl, -⟩ := h
  rfl

theorem hasExponents_one : one.HasExponents 0 :=
  ⟨.one, rfl, List.Pairwise.nil, fun _ => ⟨nofun, fun ⟨_, _, h⟩ => absurd rfl h⟩⟩

/-- No symbol is a root, and its share is the symbol with the nearest word. -/
theorem shares_of_symbols {factors : List (Atom × Int)}
    (h : ∀ x ∈ factors, ∃ id, x.1 = .symbol id) (power : Form → Int → Option Form) :
    shares power factors = factors.map fun x => { kept := [(x.1, Width.clamp32 x.2)] } := by
  have hroots : rootIndices factors = [] := by
    refine List.eq_nil_iff_forall_not_mem.2 fun index hindex => ?_
    obtain ⟨q, j, hq⟩ := mem_rootIndices.1 hindex
    obtain ⟨id, hid⟩ := h _ hq
    cases hid
  rw [shares, hroots, List.map_nil, List.append_nil]
  refine List.map_congr_left fun x hx => ?_
  obtain ⟨id, hid⟩ := h x hx
  obtain ⟨a, j⟩ := x
  cases hid
  rfl

theorem sharedTerm_of_symbols {factors : List (Atom × Int)}
    (h : ∀ x ∈ factors, ∃ id, x.1 = .symbol id) (power : Form → Int → Option Form) :
    sharedTerm 1 (shares power factors) =
      ⟨[(⟨Monomial.collectFactors (factors.map fun x => (x.1, Width.clamp32 x.2))⟩, 1)]⟩ := by
  have hkept : (shares power factors).flatMap Share.kept =
      factors.map fun x => (x.1, Width.clamp32 x.2) := by
    rw [shares_of_symbols h, List.flatMap_map, ← List.map_eq_flatMap]
  have hcoefficient : sharedCoefficient 1 (shares power factors) = 1 := by
    rw [sharedCoefficient_eq, shares_of_symbols h, List.map_map, one_mul]
    exact List.prod_eq_one fun q hq => by
      obtain ⟨x, -, rfl⟩ := List.mem_map.1 hq
      rfl
  rw [sharedTerm, hkept, hcoefficient, ofTerm_eq one_ne_zero]

/-- A product of symbols is normalised to the monomial with the nearest words for exponents. -/
theorem hasExponents_normalize {factors : List (Atom × Int)}
    (hsymbols : ∀ x ∈ factors, ∃ id, x.1 = .symbol id) (n : Nat) :
    (normalize n 1 factors).HasExponents
      (nearestWords fun id => Monomial.exponentSum (.symbol id) factors) := by
  have hcollects : ∀ x ∈ Monomial.collectFactors factors, ∃ id, x.1 = .symbol id :=
    Monomial.forall_collectFactors (P := fun a => ∃ id, a = .symbol id) hsymbols
  have hstable : ∀ x ∈ Monomial.collectFactors factors, Stable x := by
    rintro ⟨a, j⟩ hx
    obtain ⟨id, hid⟩ := hcollects _ hx
    cases hid
    trivial
  obtain ⟨power, -, hnormal⟩ := exists_normalize_eq hstable one_ne_zero n
  have hpairwise : ((Monomial.collectFactors factors).map fun x =>
      (x.1, Width.clamp32 x.2)).Pairwise fun x y => x.1 ≠ y.1 :=
    List.pairwise_map.2 (Monomial.sorted_collectFactors factors).pairwise_ne
  rw [hnormal, sharedTerm_of_symbols hcollects]
  refine ⟨_, rfl, Monomial.sorted_collectFactors _, fun x => ?_⟩
  rw [Monomial.mem_collectFactors_of_pairwise hpairwise, List.mem_map]
  constructor
  · rintro ⟨hne, y, hy, rfl⟩
    obtain ⟨id, hid⟩ := hcollects y hy
    have hsum := (Monomial.mem_collectFactors.1 hy).2
    rw [hid] at hsum
    exact ⟨id, by rw [hid, nearestWords, hsum], by rwa [nearestWords, hsum]⟩
  · rintro ⟨id, rfl, hne⟩
    have hsum : Monomial.exponentSum (.symbol id) factors ≠ 0 := fun hzero =>
      hne (by rw [nearestWords, hzero]; rfl)
    exact ⟨hne, (.symbol id, _), Monomial.mem_collectFactors.2 ⟨hsum, rfl⟩, rfl⟩

theorem hasExponents_symbol (id : Nat) : (symbol id).HasExponents (Pi.single id 1) := by
  have hsymbols : ∀ x ∈ [(Atom.symbol id, (1 : Int))], ∃ id, x.1 = .symbol id :=
    List.forall_mem_singleton.2 ⟨id, rfl⟩
  have hnormal := hasExponents_normalize hsymbols
    (unfoldings (Monomial.depthFactors [(.symbol id, 1)]))
  have hsum : (fun j => Monomial.exponentSum (.symbol j) [(.symbol id, 1)]) = Pi.single id 1 := by
    funext j
    rw [Monomial.exponentSum_cons, Monomial.exponentSum_nil, Pi.single_apply]
    simp [eq_comm]
  rw [hsum, (areWords_single id).nearestWords_eq] at hnormal
  exact hnormal

/-- The exponents of a product are added. -/
theorem HasExponents.mul (hf : f.HasExponents k) (hg : g.HasExponents l) (hk : AreWords k)
    (hl : AreWords l) : (mul f g).HasExponents (nearestWords (k + l)) := by
  obtain ⟨m, rfl, hm⟩ := hf
  obtain ⟨n, rfl, hn⟩ := hg
  have hsingle : ∀ normalize, mulWith normalize ⟨[(m, 1)]⟩ ⟨[(n, 1)]⟩ =
      mulTermWith normalize (m, 1) (n, 1) := fun normalize => by
    simp [mulWith, sumAll, sumLoop]
  rw [Form.mul, hsingle, mulTermWith]
  dsimp only
  rw [mul_one]
  split
  · next hone =>
    rw [hn.eq_zero_of_isOne hone, AddZeroClass.add_zero, hk.nearestWords_eq, ofTerm_eq one_ne_zero]
    exact ⟨m, rfl, hm⟩
  · split
    · next hone =>
      rw [hm.eq_zero_of_isOne hone, AddZeroClass.zero_add, hl.nearestWords_eq, ofTerm_eq one_ne_zero]
      exact ⟨n, rfl, hn⟩
    · have hsum : k + l =
          fun id => Monomial.exponentSum (.symbol id) (m.factors ++ n.factors) := by
        funext id
        rw [Monomial.exponentSum_append, hm.exponentSum_eq, hn.exponentSum_eq]
        rfl
      rw [hsum]
      exact hasExponents_normalize (fun x hx => (List.mem_append.1 hx).elim
        hm.exists_symbol hn.exists_symbol) _

/-- The exponents of a single term are multiplied. -/
theorem HasExponents.normalize_scaleExponents {m : Monomial} (hm : m.HasExponents k) (j : Int)
    (n : Nat) : (normalize n 1 (m.scaleExponents j)).HasExponents (nearestWords (j • k)) := by
  have hsum : j • k = fun id => Monomial.exponentSum (.symbol id) (m.scaleExponents j) := by
    funext id
    rw [exponentSum_scaleExponents, hm.exponentSum_eq, mul_comm]
    rfl
  rw [hsum]
  refine hasExponents_normalize (fun x hx => ?_) n
  obtain ⟨y, hy, rfl⟩ := List.mem_map.1 hx
  change ∃ id, y.1 = .symbol id
  exact hm.exists_symbol hy

/-- The inverse has the opposite exponents. -/
theorem HasExponents.inverse? (hf : f.HasExponents k) :
    ∃ g, f.inverse? = some g ∧ g.HasExponents (nearestWords (-k)) := by
  obtain ⟨m, rfl, hm⟩ := hf
  have hinverse := HasExponents.normalize_scaleExponents hm (-1)
    (unfoldings (Form.depth ⟨[(m, 1)]⟩))
  rw [neg_one_zsmul] at hinverse
  refine ⟨_, ?_, hinverse⟩
  rw [Form.inverse?, maxRationalizations, inverseWith, if_neg (by exact Bool.false_ne_true)]
  exact congrArg (fun q => some (normalize _ q _)) inv_one

theorem HasExponents.powNatWith (hf : f.HasExponents k) (j n : Nat) :
    (powNatWith (normalize n) f j).HasExponents (nearestWords ((j : Int) • k)) := by
  unfold Form.powNatWith
  split
  · next hj =>
    rw [hj, Nat.cast_zero, zero_smul, areWords_zero.nearestWords_eq]
    exact hasExponents_one
  · obtain ⟨m, rfl, hm⟩ := hf
    have hone : Rat.pow 1 j = 1 := one_pow (M := Rat) j
    rw [singleTerm?]
    dsimp only
    rw [hone]
    exact HasExponents.normalize_scaleExponents hm j n

/-- The exponents of a power are multiplied. -/
theorem HasExponents.pow? (hf : f.HasExponents k) (hk : AreWords k) {n : Int}
    (hn : n.natAbs ≤ maxExpandedPower) :
    ∃ g, f.pow? n = some g ∧ g.HasExponents (nearestWords (n • k)) := by
  unfold Form.pow?
  by_cases hneg : n < 0
  · obtain ⟨g, hg, hinverse⟩ := hf.inverse?
    have hpower := hinverse.powNatWith n.natAbs (unfoldings f.depth)
    have hstored : nearestWords ((n.natAbs : Int) • nearestWords (-k)) = nearestWords (n • k) := by
      funext id
      simp only [nearestWords, Pi.smul_apply, Pi.neg_apply, smul_eq_mul]
      rw [mul_comm, clamp32_mul_clamp32_neg hneg (hk id)]
    rw [hstored] at hpower
    refine ⟨_, ?_, hpower⟩
    rw [powWith, if_neg (by omega), if_pos hneg, ← Form.inverse?, hg, Option.map_some]
  · have hpower := hf.powNatWith n.natAbs (unfoldings f.depth)
    rw [Int.natAbs_of_nonneg (by omega)] at hpower
    exact ⟨_, powWith_of_nonneg _ _ (by omega) (by omega), hpower⟩

/-- A power that is multiplied out is the power with its exponent as a form. -/
theorem power_ofRat_of_pow? {p : Preferences} (hf : f.isZero = false) {n : Int}
    (hn : n.natAbs ≤ maxExpandedPower) (h : f.pow? n = some g) : power p f (ofRat n) = .ok g := by
  have hword : Width.isInt64 n = true := by
    unfold maxExpandedPower at hn
    exact Width.isInt64_iff.2 ⟨by omega, by omega⟩
  have hint64 : Rational.toInt64? (n : Rat) = some n := by
    simp [Rational.toInt64?, Expression.toInteger?_intCast, hword]
  rw [power, toRat?_ofRat]
  dsimp only
  rw [if_neg (by simp [hf]), rationalPower_of_pow? hint64 h]

end Form

/-! ### Power products -/

namespace Expression

/-- The number that a whole literal, or the opposite of one, stands for. -/
def whole? : Expression → Option Int
  | integer n => some n
  | opposite e => e.whole?.map Neg.neg
  | _ => none

/-- The expression is built from symbols of a class by products, quotients and powers with whole
exponents, which are 32 at most in absolute value. -/
inductive IsPowerProduct (S : Nat → Prop) : Expression → Prop
  /-- Symbols of the class. -/
  | symbol {id : Nat} (h : S id) : IsPowerProduct S (symbol id)
  /-- Products of several factors. -/
  | product {es : List Expression} (hlength : 2 ≤ es.length)
      (hes : ∀ e ∈ es, IsPowerProduct S e) : IsPowerProduct S (product es)
  /-- Quotients. -/
  | quotient {a b : Expression} (ha : IsPowerProduct S a) (hb : IsPowerProduct S b) :
      IsPowerProduct S (quotient a b)
  /-- Powers. -/
  | power {a b : Expression} {n : Int} (ha : IsPowerProduct S a) (hb : b.whole? = some n)
      (hn : n.natAbs ≤ 32) : IsPowerProduct S (power a b)

mutual

/-- The exponents of the symbols in a power product. -/
def exponents : Expression → Nat → Int
  | symbol id => Pi.single id 1
  | product es => exponentsOf es
  | quotient a b => exponents a - exponents b
  | power a b => b.whole?.getD 0 • exponents a
  | _ => 0

/-- The exponents of the symbols in the product of a list. -/
def exponentsOf : List Expression → Nat → Int
  | [] => 0
  | e :: es => exponents e + exponentsOf es

end

mutual

/-- The exponents of the symbols in a power product, where each result of their arithmetic is
stored as the nearest word. -/
def storedExponents : Expression → Nat → Int
  | symbol id => Pi.single id 1
  | product es => addStored 0 es
  | quotient a b => nearestWords (storedExponents a + nearestWords (-storedExponents b))
  | power a b => nearestWords (b.whole?.getD 0 • storedExponents a)
  | _ => 0

/-- Adds the exponents in the members of a list to others, from the left. -/
def addStored (k : Nat → Int) : List Expression → Nat → Int
  | [] => k
  | e :: es => addStored (nearestWords (k + storedExponents e)) es

end

/-- No exponent of a part, of the first factors of a product, or of the inverse of a denominator
leaves the range of a word. -/
inductive ExponentsFit : Expression → Prop
  /-- Symbols. -/
  | symbol (id : Nat) : ExponentsFit (symbol id)
  /-- Products. -/
  | product {es : List Expression} (hes : ∀ e ∈ es, ExponentsFit e)
      (hfirst : ∀ xs, xs <+: es → AreWords (exponentsOf xs)) : ExponentsFit (product es)
  /-- Quotients. -/
  | quotient {a b : Expression} (ha : ExponentsFit a) (hb : ExponentsFit b)
      (hinverse : AreWords (-b.exponents)) (hquotient : AreWords (a.exponents - b.exponents)) :
      ExponentsFit (quotient a b)
  /-- Powers. -/
  | power {a b : Expression} (ha : ExponentsFit a)
      (hpower : AreWords (b.whole?.getD 0 • a.exponents)) : ExponentsFit (power a b)

variable {p : Preferences} {S : Nat → Prop} {e : Expression}

/-! ### Stored exponents -/

theorem addStored_eq {es : List Expression}
    (hes : ∀ e ∈ es, e.storedExponents = e.exponents)
    (hfirst : ∀ xs, xs <+: es → AreWords (k + exponentsOf xs)) :
    addStored k es = k + exponentsOf es := by
  induction es generalizing k with
  | nil => rw [addStored, exponentsOf, add_zero]
  | cons e es ih =>
    obtain ⟨he, hes⟩ := List.forall_mem_cons.1 hes
    have hone : AreWords (k + e.exponents) := by
      have := hfirst [e] (List.cons_prefix_cons.2 ⟨rfl, List.nil_prefix⟩)
      rwa [exponentsOf, exponentsOf, add_zero] at this
    rw [addStored, he, hone.nearestWords_eq, ih hes, exponentsOf, add_assoc]
    intro xs hxs
    have := hfirst (e :: xs) (List.cons_prefix_cons.2 ⟨rfl, hxs⟩)
    rwa [exponentsOf, ← add_assoc] at this

/-- **Exponents in range are exact.** -/
theorem ExponentsFit.storedExponents_eq (h : e.ExponentsFit) :
    e.storedExponents = e.exponents := by
  induction h with
  | symbol => rw [storedExponents, exponents]
  | product _ hfirst ih =>
    rw [storedExponents, exponents, addStored_eq ih, zero_add]
    simpa only [zero_add] using hfirst
  | quotient _ _ hinverse hquotient iha ihb =>
    rw [storedExponents, exponents, iha, ihb, hinverse.nearestWords_eq, ← sub_eq_add_neg,
      hquotient.nearestWords_eq]
  | power _ hpower ih => rw [storedExponents, exponents, ih, hpower.nearestWords_eq]

/-! ### Forms of power products -/

/-- What holds of literals and is kept by opposites holds of all expressions of whole numbers. -/
theorem whole?_induction {P : Expression → Int → Prop} (literal : ∀ n, P (integer n) n)
    (opposite : ∀ e n, P e n → P (opposite e) (-n)) {e : Expression} {n : Int}
    (h : e.whole? = some n) : P e n := by
  induction e using whole?.induct generalizing n with
  | case1 m =>
    obtain rfl : m = n := Option.some.inj h
    exact literal m
  | case2 e ih =>
    obtain ⟨m, hm, rfl⟩ := Option.map_eq_some_iff.1 h
    exact opposite e m (ih hm)
  | case3 e hinteger hopposite =>
    rw [whole?.eq_3 e hinteger hopposite] at h
    cases h

theorem form_of_whole? {n : Int} (h : e.whole? = some n) : e.form p = .ok (Form.ofRat n) := by
  refine whole?_induction (P := fun e n => e.form p = .ok (Form.ofRat n)) (form_integer p)
    (fun e n ih => ?_) h
  rw [form, ih, Int.cast_neg, ← Form.neg_ofRat]
  rfl

theorem IsPowerProduct.isE (h : e.IsPowerProduct S) : e.isE = false := by
  cases h <;> rfl

/-- Where the members of a list have forms with their stored exponents, so has their product. -/
theorem exists_forms {es : List Expression}
    (hes : ∀ e ∈ es, AreWords e.storedExponents ∧
      ∃ f, e.form p = .ok f ∧ f.HasExponents e.storedExponents) :
    ∃ fs, forms p es = .ok fs ∧ ∀ (g : Form) (k : Nat → Int), g.HasExponents k → AreWords k →
      AreWords (addStored k es) ∧ (fs.foldl Form.mul g).HasExponents (addStored k es) := by
  induction es with
  | nil => exact ⟨[], by rw [forms], fun g k hg hk => ⟨hk, hg⟩⟩
  | cons e es ih =>
    obtain ⟨⟨he, f, hf, hfe⟩, hes⟩ := List.forall_mem_cons.1 hes
    obtain ⟨fs, hfs, hproduct⟩ := ih hes
    refine ⟨f :: fs, by rw [forms_cons_of_ok hf, hfs]; rfl, fun g k hg hk => ?_⟩
    rw [addStored, List.foldl_cons]
    exact hproduct _ _ (hg.mul hfe hk he) (areWords_nearestWords _)

/-- The form of a power product is one monomial, with the stored exponents. -/
theorem IsPowerProduct.exists_form (h : e.IsPowerProduct S) :
    AreWords e.storedExponents ∧
      ∃ f, e.form p = .ok f ∧ f.HasExponents e.storedExponents := by
  induction h with
  | @symbol id _ =>
    rw [storedExponents]
    exact ⟨areWords_single id, _, by rw [form], Form.hasExponents_symbol id⟩
  | @product es _ _ ih =>
    obtain ⟨fs, hfs, hproduct⟩ := exists_forms ih
    obtain ⟨hwords, hexponents⟩ := hproduct _ _ Form.hasExponents_one areWords_zero
    rw [storedExponents, form_product, hfs]
    exact ⟨hwords, _, rfl, hexponents⟩
  | quotient _ _ iha ihb =>
    obtain ⟨ha, f, hf, hfk⟩ := iha
    obtain ⟨-, g, hg, hgk⟩ := ihb
    obtain ⟨i, hi, hik⟩ := hgk.inverse?
    rw [storedExponents]
    refine ⟨areWords_nearestWords _, f.mul i, ?_, hfk.mul hik ha (areWords_nearestWords _)⟩
    exact form_quotient hf hg (by rw [Form.divide?, hi, Option.map_some])
  | @power a b n ha hb hn ih =>
    obtain ⟨hk, f, hf, hfk⟩ := ih
    obtain ⟨g, hg, hgk⟩ := hfk.pow? hk hn
    rw [storedExponents, hb, Option.getD_some]
    refine ⟨areWords_nearestWords _, g, ?_, hgk⟩
    rw [form, form_of_whole? hb, hf, ha.isE]
    exact Form.power_ofRat_of_pow? hfk.isZero hn hg

/-! ### A bound that keeps exponents in range -/

mutual

/-- A bound on the exponents that are computed in a power product. -/
def weight : Expression → Nat
  | symbol _ => 1
  | product es => weightOf es
  | quotient a b => weight a + weight b
  | power a b => max 1 (b.whole?.getD 0).natAbs * weight a
  | _ => 0

/-- A bound on the exponents that are computed in the product of a list. -/
def weightOf : List Expression → Nat
  | [] => 0
  | e :: es => weight e + weightOf es

end

theorem weightOf_eq (es : List Expression) : weightOf es = (es.map weight).sum := by
  induction es with
  | nil => rfl
  | cons e es ih => rw [weightOf, ih, List.map_cons, List.sum_cons]

theorem natAbs_exponentsOf_le {es : List Expression} {id : Nat}
    (h : ∀ e ∈ es, (e.exponents id).natAbs ≤ e.weight) :
    (exponentsOf es id).natAbs ≤ weightOf es := by
  induction es with
  | nil => exact le_rfl
  | cons e es ih =>
    obtain ⟨he, hes⟩ := List.forall_mem_cons.1 h
    have hadd := Int.natAbs_add_le (e.exponents id) (exponentsOf es id)
    have hrest := ih hes
    rw [exponentsOf, weightOf, Pi.add_apply]
    omega

theorem IsPowerProduct.natAbs_exponents_le (h : e.IsPowerProduct S) (id : Nat) :
    (e.exponents id).natAbs ≤ e.weight := by
  induction h with
  | symbol =>
    rw [exponents, weight, Pi.single_apply]
    split <;> decide
  | product _ _ ih =>
    rw [exponents, weight]
    exact natAbs_exponentsOf_le ih
  | @quotient a b _ _ iha ihb =>
    have hsub := Int.natAbs_sub_le (a.exponents id) (b.exponents id)
    rw [exponents, weight, Pi.sub_apply]
    omega
  | power _ _ _ ih =>
    rw [exponents, weight, Pi.smul_apply, smul_eq_mul, Int.natAbs_mul]
    exact Nat.mul_le_mul (Nat.le_max_right _ _) ih

/-- The exponents of a power product fit where the sum of the products of their absolute values
does. -/
theorem IsPowerProduct.exponentsFit (h : e.IsPowerProduct S) (hweight : e.weight ≤ 2147483647) :
    e.ExponentsFit := by
  induction h with
  | symbol => exact .symbol _
  | @product es _ hes ih =>
    rw [weight] at hweight
    refine .product (fun e he => ih e he ?_) fun xs hxs => ?_
    · rw [weightOf_eq] at hweight
      exact (List.le_sum_of_mem (List.mem_map_of_mem he)).trans hweight
    · have hle : weightOf xs ≤ weightOf es := by
        rw [weightOf_eq, weightOf_eq]
        exact (hxs.sublist.map weight).sum_le_sum fun _ _ => Nat.zero_le _
      exact areWords_of_natAbs_le (hle.trans hweight) fun id =>
        natAbs_exponentsOf_le fun e he => (hes e (hxs.subset he)).natAbs_exponents_le id
  | @quotient a b ha hb iha ihb =>
    have hbound := (IsPowerProduct.quotient ha hb).natAbs_exponents_le
    rw [exponents] at hbound
    have hfits := areWords_of_natAbs_le hweight hbound
    rw [weight] at hweight
    refine .quotient (iha (by omega)) (ihb (by omega)) ?_ hfits
    exact areWords_of_natAbs_le (n := b.weight) (by omega) fun id => by
      rw [Pi.neg_apply, Int.natAbs_neg]
      exact hb.natAbs_exponents_le id
  | @power a b n ha hb hn ih =>
    have hbound := (IsPowerProduct.power ha hb hn).natAbs_exponents_le
    rw [exponents] at hbound
    have hfits := areWords_of_natAbs_le hweight hbound
    rw [weight] at hweight
    exact .power (ih ((Nat.le_mul_of_pos_left _ (by omega)).trans hweight)) hfits

/-! ### Power products as they are written -/

theorem written_of_whole? {n : Int} (h : e.whole? = some n) : e.Written S :=
  whole?_induction (P := fun e _ => e.Written S) .integer (fun _ _ => .opposite) h

theorem IsPowerProduct.written (h : e.IsPowerProduct S) : e.Written S := by
  induction h with
  | symbol hid => exact .symbol hid
  | product hlength _ ih => exact .product hlength ih
  | quotient _ _ iha ihb => exact .quotient iha ihb
  | power _ hb _ ih => exact .power ih (written_of_whole? hb)

theorem isTranscendental_of_whole? {n : Int} (h : e.whole? = some n) :
    e.isTranscendental = false :=
  whole?_induction (P := fun e _ => e.isTranscendental = false) (fun _ => rfl)
    (fun _ _ ih => any_eq_false_iff.2 ⟨rfl, List.forall_mem_singleton.2 ih⟩) h

theorem IsPowerProduct.isTranscendental (h : e.IsPowerProduct S) : e.isTranscendental = false := by
  induction h with
  | symbol => rfl
  | product _ _ ih => exact any_eq_false_iff.2 ⟨rfl, ih⟩
  | quotient _ _ iha ihb =>
    exact any_eq_false_iff.2 ⟨rfl, List.forall_mem_cons.2 ⟨iha, List.forall_mem_singleton.2 ihb⟩⟩
  | power ha hb _ ih =>
    refine any_eq_false_iff.2 ⟨?_, List.forall_mem_cons.2
      ⟨ih, List.forall_mem_singleton.2 (isTranscendental_of_whole? hb)⟩⟩
    cases ha <;> rfl

end Expression

/-! ### Canonical forms of power products -/

namespace Build

variable {c d : Canonizer} {A B : Arena} {h j : Handle} {e f : Expression}

/-- The handle is that of a power product of symbols that no definition replaces. -/
structure StoresPowers (c : Canonizer) (A : Arena) (h : Handle) (e : Expression) : Prop where
  /-- The arena is well formed. -/
  wellFormed : A.WellFormed
  /-- The handle stands for the expression. -/
  denotes : Denotes e h A
  /-- The expression is a power product. -/
  isPowerProduct : e.IsPowerProduct (Keeps c A)

/-- The canonical form of a power product is one monomial, with the stored exponents. -/
theorem StoresPowers.exists_canonical (he : StoresPowers c A h e) :
    ∃ r, canonical c h A = (.ok r, A) ∧ r.form.HasExponents e.storedExponents := by
  obtain ⟨-, f, hf, hexponents⟩ := he.isPowerProduct.exists_form (p := c.preferences)
  obtain ⟨r, hr, rfl⟩ := exists_canonical_of_kept he.wellFormed (fun _ hid => hid) he.denotes
    he.isPowerProduct.written he.isPowerProduct.isTranscendental hf
  exact ⟨r, hr, hexponents⟩

/-- **Exponents are exact in range**: the canonical form of a power product is one monomial with
coefficient one, whose exponents are those that are stored.  As long as no exponent on the way
leaves the range of a word, they are the exact ones, so that power products with different exponents
have different forms. -/
theorem canonical_exponents (he : StoresPowers c A h e) (hf : StoresPowers d B j f) :
    ∃ r s, canonical c h A = (.ok r, A) ∧ canonical d j B = (.ok s, B) ∧
      r.form.HasExponents e.storedExponents ∧
      (e.ExponentsFit → r.form.HasExponents e.exponents) ∧
      (e.ExponentsFit → f.ExponentsFit → (r.form = s.form ↔ e.exponents = f.exponents)) := by
  obtain ⟨r, hr, hrk⟩ := he.exists_canonical
  obtain ⟨s, hs, hsl⟩ := hf.exists_canonical
  refine ⟨r, s, hr, hs, hrk, fun hfit => ?_, fun hfit hfit' => ?_⟩
  · rwa [hfit.storedExponents_eq] at hrk
  · rw [hrk.eq_iff hsl, hfit.storedExponents_eq, hfit'.storedExponents_eq]

/-- The nodes of `x ^ -3 * y / (x * x)` and of `y / x ^ 5`. -/
def fifthInverseArena : Arena :=
  .ofNodes ["x", "y"] [.symbol 0, .symbol 1, .integer (-3), .power ⟨0⟩ ⟨2⟩, .product [⟨3⟩, ⟨1⟩],
    .product [⟨0⟩, ⟨0⟩], .quotient ⟨4⟩ ⟨5⟩, .integer 5, .power ⟨0⟩ ⟨7⟩, .quotient ⟨1⟩ ⟨8⟩]
    (by decide)

/-- The expression `x ^ -3 * y / (x * x)`. -/
def dividedTwice : Expression :=
  .quotient (.product [.power (.symbol 0) (.integer (-3)), .symbol 1])
    (.product [.symbol 0, .symbol 0])

/-- The expression `y / x ^ 5`. -/
def dividedOnce : Expression := .quotient (.symbol 1) (.power (.symbol 0) (.integer 5))

/-- No definitions, and the standard preferences. -/
def standard : Canonizer := { simplifier := .saturation }

theorem storesPowers_dividedTwice : StoresPowers standard fifthInverseArena ⟨6⟩ dividedTwice where
  wellFormed := .ofNodes (by decide) (by decide) (by decide)
  denotes := rfl
  isPowerProduct := by
    have hx : Expression.IsPowerProduct (Keeps standard fifthInverseArena) (.symbol 0) :=
      .symbol fun _ => rfl
    have hy : Expression.IsPowerProduct (Keeps standard fifthInverseArena) (.symbol 1) :=
      .symbol fun _ => rfl
    exact .quotient (.product le_rfl (by simpa using ⟨.power hx rfl (by decide), hy⟩))
      (.product le_rfl (by simpa using hx))

theorem storesPowers_dividedOnce : StoresPowers standard fifthInverseArena ⟨9⟩ dividedOnce where
  wellFormed := .ofNodes (by decide) (by decide) (by decide)
  denotes := rfl
  isPowerProduct := .quotient (.symbol fun _ => rfl)
    (.power (.symbol fun _ => rfl) rfl (by decide))

/-- Powers of one symbol that are written in two ways have one form. -/
theorem canonical_exponents_divided : ∃ r s,
    canonical standard ⟨6⟩ fifthInverseArena = (.ok r, fifthInverseArena) ∧
    canonical standard ⟨9⟩ fifthInverseArena = (.ok s, fifthInverseArena) ∧
    dividedTwice.ExponentsFit ∧ dividedOnce.ExponentsFit ∧
    r.form.HasExponents (Pi.single 1 1 - 5 • Pi.single 0 1) ∧ r.form = s.form := by
  obtain ⟨r, s, hr, hs, -, hexact, hiff⟩ :=
    canonical_exponents storesPowers_dividedTwice storesPowers_dividedOnce
  have hfit := storesPowers_dividedTwice.isPowerProduct.exponentsFit (by decide)
  have hfit' := storesPowers_dividedOnce.isPowerProduct.exponentsFit (by decide)
  have htwice : dividedTwice.exponents = Pi.single 1 1 - 5 • Pi.single 0 1 := by
    simp only [dividedTwice, Expression.exponents, Expression.exponentsOf, Expression.whole?,
      Option.getD_some]
    module
  have honce : dividedOnce.exponents = Pi.single 1 1 - 5 • Pi.single 0 1 := by
    simp only [dividedOnce, Expression.exponents, Expression.whole?, Option.getD_some]
    module
  exact ⟨r, s, hr, hs, hfit, hfit', htwice ▸ hexact hfit,
    (hiff hfit hfit').2 (htwice.trans honce.symm)⟩

/-- Powers with the exponent 32 that are nested in each other. -/
def nestedPower : Nat → Expression
  | 0 => .symbol 0
  | n + 1 => .power (nestedPower n) (.integer 32)

theorem isPowerProduct_nestedPower {S : Nat → Prop} (h : S 0) (n : Nat) :
    (nestedPower n).IsPowerProduct S := by
  induction n with
  | zero => exact .symbol h
  | succ n ih => exact .power ih rfl (by decide)

theorem storedExponents_nestedPower {id : Nat} (hid : id ≠ 0) (n : Nat) :
    (nestedPower n).storedExponents id = 0 := by
  induction n with
  | zero => exact Pi.single_eq_of_ne hid 1
  | succ n ih =>
    rw [nestedPower, Expression.storedExponents, nearestWords, Pi.smul_apply, ih, smul_zero]
    rfl

/-- The nodes of the first eight nested powers. -/
def nestedPowerArena : Arena :=
  .ofNodes ["x"] [.symbol 0, .integer 32, .power ⟨0⟩ ⟨1⟩, .power ⟨2⟩ ⟨1⟩, .power ⟨3⟩ ⟨1⟩,
    .power ⟨4⟩ ⟨1⟩, .power ⟨5⟩ ⟨1⟩, .power ⟨6⟩ ⟨1⟩, .power ⟨7⟩ ⟨1⟩, .power ⟨8⟩ ⟨1⟩]
    (List.nodup_singleton _)

/-- Beyond the range of a word, powers with different exponents have one form: those of `x` with the
exponents `32 ^ 7` and `32 ^ 8` are both stored with the greatest word. -/
theorem exists_canonical_exponents_ne : ∃ (c : Canonizer) (A : Arena) (h j : Handle)
    (e f : Expression) (r s : Canonical), StoresPowers c A h e ∧ StoresPowers c A j f ∧
      canonical c h A = (.ok r, A) ∧ canonical c j A = (.ok s, A) ∧
      ¬ r.form.HasExponents e.exponents ∧ e.exponents ≠ f.exponents ∧ r.form = s.form := by
  have hkeeps : Keeps standard nestedPowerArena 0 := fun _ => rfl
  have hA : nestedPowerArena.WellFormed := .ofNodes (by decide) (by decide) (by decide)
  have hseventh : StoresPowers standard nestedPowerArena ⟨8⟩ (nestedPower 7) :=
    ⟨hA, rfl, isPowerProduct_nestedPower hkeeps 7⟩
  have heighth : StoresPowers standard nestedPowerArena ⟨9⟩ (nestedPower 8) :=
    ⟨hA, rfl, isPowerProduct_nestedPower hkeeps 8⟩
  obtain ⟨r, hr, hrk⟩ := hseventh.exists_canonical
  obtain ⟨s, hs, hsl⟩ := heighth.exists_canonical
  have hstored : (nestedPower 7).storedExponents = (nestedPower 8).storedExponents := by
    funext id
    by_cases hid : id = 0
    · rw [hid]
      decide
    · rw [storedExponents_nestedPower hid, storedExponents_nestedPower hid]
  have hexact : (nestedPower 7).exponents 0 ≠ (nestedPower 7).storedExponents 0 := by decide
  have hne : (nestedPower 7).exponents 0 ≠ (nestedPower 8).exponents 0 := by decide
  refine ⟨standard, nestedPowerArena, ⟨8⟩, ⟨9⟩, _, _, r, s, hseventh, heighth, hr, hs, fun h => ?_,
    fun h => hne (congrFun h 0), (hrk.eq_iff hsl).2 hstored⟩
  exact hexact (congrFun ((h.eq_iff hrk).1 rfl) 0)

end Build

end Resolvent

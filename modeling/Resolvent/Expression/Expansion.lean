import Resolvent.Expression.Context

/-!
# Expansion of definitions

Expanding an expression replaces calls of user functions by their bodies, with the parameter
standing for the expanded argument, and variables by their values, unless the mode keeps variables
symbolic.  Substitutions are nested at most 32 deep, which also stops circular definitions.  The
symbols that are left are recorded in the order in which they are met, and those of the arguments
of calls besides, because an unknown counts even where a function ignores its argument.
-/

namespace Resolvent

/-- Which definitions are replaced. -/
inductive Mode where
  /-- Variables and user functions. -/
  | replaceAll
  /-- User functions only. -/
  | functionsOnly
  deriving DecidableEq, Repr

/-- Why an expression has no canonical form. -/
inductive CanonicalError where
  /-- A quotient by zero, an unknown function, a circular definition. -/
  | undefined
  /-- The expression contains a matrix. -/
  | matrix
  /-- The expression has no real value. -/
  | unreal
  /-- The arena is full. -/
  | exhausted (e : Exhausted)
  /-- There is no room for nested calls: the program ends without an answer. -/
  | overflow
  deriving DecidableEq, Repr

/-- What to tell the user. -/
def CanonicalError.message : CanonicalError → String
  | undefined => "expression is undefined"
  | matrix => "expression contains a matrix"
  | unreal => "expression has no real value"
  | exhausted e => e.message
  | overflow => "stack overflow"

/-- How deep substitutions may be nested. -/
def maxSubstitutionDepth : Nat := 32

/-- The symbols met while expanding. -/
structure Encounters where
  /-- The symbols that stand in the expanded expression, in the order in which they were met. -/
  met : List Nat := []
  /-- The symbols of the arguments of calls. -/
  arguments : List Nat := []
  deriving DecidableEq, Repr

/-- Computations that store nodes, record symbols and may stop with an error. -/
abbrev ExpandM := ExceptT CanonicalError (StateM (Arena × Encounters))

namespace ExpandM

/-- Stores nodes. -/
def build (m : Build Handle) : ExpandM Handle := fun (A, s) =>
  match m A with
  | (.ok h, A) => (.ok h, (A, s))
  | (.error e, A) => (.error (.exhausted e), (A, s))

/-- Records a symbol that stays. -/
def meet (id : Nat) : ExpandM Unit :=
  modify fun (A, s) => (A, if s.met.contains id then s else { s with met := s.met ++ [id] })

/-- Records the symbols of the argument of a call. -/
def dependOn (h : Handle) : ExpandM Unit :=
  modify fun (A, s) =>
    (A, { s with arguments := (A.expression h).collectSymbols s.arguments })

end ExpandM

namespace Expression

/-- The parameters in scope, the innermost first, with the arguments they stand for. -/
abbrev Parameters := List (Nat × Handle)

/-- What a symbol expands to: the argument of a parameter, the expanded value of a variable, or the
symbol itself. -/
def expandSymbol (Δ : Definitions) (mode : Mode)
    (nested : Parameters → Expression → ExpandM Handle) (scope : Parameters) (id : Nat) :
    ExpandM Handle :=
  match scope.lookup id with
  | some h => return h
  | none =>
    match if mode = .replaceAll then Δ.value? id else none with
    | some value => nested scope value
    | none => do
      ExpandM.meet id
      ExpandM.build (Build.intern (.symbol id))

/-- What a call expands to, given its expanded argument. -/
def expandCall (Δ : Definitions) (nested : Parameters → Expression → ExpandM Handle)
    (scope : Parameters) (name : Nat) (argument : Handle) : ExpandM Handle := do
  ExpandM.dependOn argument
  match Δ.function? name with
  | none => throw .undefined
  | some (some parameter, body) => nested ((parameter, argument) :: scope) body
  | some (none, body) => nested scope body

mutual

/-- Expands an expression; `nested` expands the values and bodies of definitions. -/
def expandWith (Δ : Definitions) (mode : Mode)
    (nested : Parameters → Expression → ExpandM Handle) (scope : Parameters) :
    Expression → ExpandM Handle
  | integer n => ExpandM.build (Build.integer n)
  | fraction q => ExpandM.build (Build.intern (.fraction q))
  | float bits => ExpandM.build (Build.intern (.float bits))
  | constant c => ExpandM.build (Build.constant c)
  | undefined => ExpandM.build Build.undefined
  | unreal => ExpandM.build Build.unreal
  | symbol id => expandSymbol Δ mode nested scope id
  | sum args => do
    let args ← expandAllWith Δ mode nested scope args
    ExpandM.build (Build.sum args)
  | product args => do
    let args ← expandAllWith Δ mode nested scope args
    ExpandM.build (Build.product args)
  | power base exponent => do
    let base ← expandWith Δ mode nested scope base
    let exponent ← expandWith Δ mode nested scope exponent
    ExpandM.build (Build.power base exponent)
  | opposite arg => do
    let arg ← expandWith Δ mode nested scope arg
    ExpandM.build (Build.opposite arg)
  | quotient numerator denominator => do
    let numerator ← expandWith Δ mode nested scope numerator
    let denominator ← expandWith Δ mode nested scope denominator
    ExpandM.build (Build.quotient numerator denominator)
  | apply code args => do
    let args ← expandAllWith Δ mode nested scope args
    ExpandM.build (Build.applyCode code args)
  | call name arg => do
    let argument ← expandWith Δ mode nested scope arg
    expandCall Δ nested scope name argument
  | matrix _ _ _ => throw .matrix

/-- Expands the members of a list, from the left. -/
def expandAllWith (Δ : Definitions) (mode : Mode)
    (nested : Parameters → Expression → ExpandM Handle) (scope : Parameters) :
    List Expression → ExpandM (List Handle)
  | [] => return []
  | e :: es => do
    let h ← expandWith Δ mode nested scope e
    let hs ← expandAllWith Δ mode nested scope es
    return h :: hs

end

/-- Expands an expression with substitutions nested at most `depth` deep. -/
def expandAt (Δ : Definitions) (mode : Mode) : Nat → Parameters → Expression → ExpandM Handle
  | 0 => expandWith Δ mode fun _ _ => throw .undefined
  | depth + 1 => expandWith Δ mode (expandAt Δ mode depth)

/-- Expands an expression. -/
def expand (Δ : Definitions) (mode : Mode) (e : Expression) : ExpandM Handle :=
  expandAt Δ mode maxSubstitutionDepth [] e

/-! ### Questions about expanded expressions -/

/-- The expression itself is the imaginary unit, or it refers to a definition of which a question
holds. -/
def refersTo (Δ : Definitions) (mode : Mode) (ask : Expression → Bool) : Expression → Bool
  | constant .imaginaryUnit => true
  | symbol id => decide (mode = .replaceAll) && (Δ.value? id).any ask
  | call name _ => (Δ.function? name).any fun d => ask d.2
  | _ => false

/-- The imaginary unit occurs in the expression or in definitions it refers to, followed at most
`depth` deep. -/
def mentionsImaginaryAt (Δ : Definitions) (mode : Mode) : Nat → Expression → Bool
  | 0, e => e.any (refersTo Δ mode fun _ => false)
  | depth + 1, e => e.any (refersTo Δ mode (mentionsImaginaryAt Δ mode depth))

/-- The imaginary unit occurs in the expression once definitions are followed. -/
def mentionsImaginary (Δ : Definitions) (mode : Mode) (e : Expression) : Bool :=
  mentionsImaginaryAt Δ mode maxSubstitutionDepth e

/-- A power of `ℯ`, or a transcendental function. -/
def isTranscendentalHead : Expression → Bool
  | apply code _ => ((Builtin.ofCode? code).map Builtin.isTranscendental).getD false
  | power (constant .e) _ => true
  | _ => false

/-- The expression has a part that the rules for functions apply to. -/
def isTranscendental (e : Expression) : Bool := e.any isTranscendentalHead

end Expression

end Resolvent

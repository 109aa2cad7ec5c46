import Resolvent.Expression.Arena

/-!
# Definitions

What the user has stored before solving: variables with a value and functions of one parameter with
a body.  A name has at most one definition, so it is a variable or a function and never both.
`Context.lookup_define` and `Context.lookup_undefine` are the laws of the store.
-/

namespace Resolvent

/-- What a name stands for. -/
inductive Definition (α : Type) where
  /-- A variable and its value. -/
  | variable (value : α)
  /-- A function with its parameter and its body. -/
  | function (parameter : String) (body : α)
  deriving DecidableEq, Repr

/-- The value or body of a definition. -/
def Definition.body {α : Type} : Definition α → α
  | .variable value => value
  | .function _ body => body

/-- The definitions of names. -/
structure Context (α : Type) where
  /-- The names that have a definition, each with it. -/
  entries : List (String × Definition α) := []

namespace Context

variable {α : Type}

/-- The definition of a name. -/
def lookup? (Γ : Context α) (name : String) : Option (Definition α) := Γ.entries.lookup name

/-- Takes the definition of a name away. -/
def undefine (Γ : Context α) (name : String) : Context α :=
  ⟨Γ.entries.filter fun entry => entry.1 != name⟩

/-- Gives a name a definition, in place of the one it has. -/
def define (Γ : Context α) (name : String) (d : Definition α) : Context α :=
  ⟨(name, d) :: (Γ.undefine name).entries⟩

/-- The value of a variable. -/
def value? (Γ : Context α) (name : String) : Option α :=
  match Γ.lookup? name with
  | some (.variable value) => some value
  | _ => none

/-- The parameter and body of a function. -/
def function? (Γ : Context α) (name : String) : Option (String × α) :=
  match Γ.lookup? name with
  | some (.function parameter body) => some (parameter, body)
  | _ => none

/-- All values and bodies. -/
def bodies (Γ : Context α) : List α := Γ.entries.map fun entry => entry.2.body

/-- No name has a definition. -/
def isEmpty (Γ : Context α) : Bool := Γ.entries.isEmpty

end Context

/-- The definitions that expressions refer to: by symbol number, with values and bodies as
expressions and parameters as symbol numbers.  A parameter whose name is no symbol binds nothing. -/
structure Definitions where
  /-- The value of a variable. -/
  value? : Nat → Option Expression := fun _ => none
  /-- The parameter and body of a function. -/
  function? : Nat → Option (Option Nat × Expression) := fun _ => none

/-- The definitions of a context, read in an arena. -/
def Context.definitions (Γ : Context Handle) (A : Arena) : Definitions where
  value? id := (A.symbolName? id).bind fun name => (Γ.value? name).map A.expression
  function? id := (A.symbolName? id).bind fun name =>
    (Γ.function? name).map fun (parameter, body) => (A.symbolId? parameter, A.expression body)

end Resolvent

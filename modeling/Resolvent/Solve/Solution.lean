import Resolvent.Expression.Printer
import Resolvent.Solve.Answer
import Resolvent.Solve.Status

/-!
# Solutions

A solution is an answer as the user sees it: an exact and an approximate expression with their
texts, and whether they are shown as one expression, as an equality or as an approximation.
-/

namespace Resolvent

/-- A solution with its exact and its approximate expression. -/
structure Solution where
  /-- The exact expression. -/
  exact : Handle
  /-- The approximate expression. -/
  approximate : Handle
  /-- The text of the exact expression. -/
  exactText : String
  /-- The text of the approximate expression. -/
  approximateText : String
  /-- Only the approximate expression is shown: the texts are the same, or the exact one is
  forbidden. -/
  identity : Bool
  /-- The approximate expression is exactly the value, and both are shown. -/
  equality : Bool
  deriving DecidableEq, Repr

namespace Solution

/-- The solution that an answer gives, where its rendition is stored. -/
def ofAnswer (A : Arena) (exam : ExamMode) (answer : Answer) (r : Rendition)
    (exact approximate : Handle) : Solution :=
  let exactText := A.text exact
  let approximateText := A.text approximate
  let identity := exam.forbids (A.expression exact) || exactText == approximateText
  { exact, approximate, exactText, approximateText, identity
    equality := !identity && answer.isDecimal r.value }

/-- Stores the rendition of an answer and lists it where it is a finite number.  Values that are not
real are left out.  Undefined ones are left out too and make the equation undefined. -/
def present (p : Preferences) (exam : ExamMode) (status : Status) (answer : Answer) :
    Stage (List Solution) Status := do
  let r := answer.rendition p
  let exact ← Stage.build (Build.store r.exact)
  let approximate ← Stage.build (Build.store r.approximate)
  let A ← Stage.arena
  match r.kind with
  | .unreal => return status
  | .undefined => return .equationUndefined
  | .finite =>
    Stage.update fun solutions => solutions ++ [ofAnswer A exam answer r exact approximate]
    return status

/-- Stores the renditions of answers and lists those that are finite numbers. -/
def presentAll (p : Preferences) (exam : ExamMode) :
    Status → List Answer → Stage (List Solution) Status
  | status, [] => return status
  | status, answer :: rest => do presentAll p exam (← present p exam status answer) rest

end Solution

end Resolvent

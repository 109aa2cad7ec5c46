import Resolvent.Expression.Arena
import Resolvent.Expression.Builtin
import Resolvent.Expression.Context
import Resolvent.Expression.Expansion
import Resolvent.Expression.Node
import Resolvent.Expression.Printer
import Resolvent.Expression.Storage
import Resolvent.Expression.Symbols
import Resolvent.Form.Approximation
import Resolvent.Form.Basic
import Resolvent.Form.Canonical
import Resolvent.Form.Coefficients
import Resolvent.Form.Conjugation
import Resolvent.Form.Display
import Resolvent.Form.Elementary
import Resolvent.Form.Evaluation
import Resolvent.Form.OfExpression
import Resolvent.Form.Parts
import Resolvent.Form.PerfectPower
import Resolvent.Form.Plain
import Resolvent.Form.Product
import Resolvent.Form.Radical
import Resolvent.Form.Recursion
import Resolvent.Form.Sum
import Resolvent.Form.Text
import Resolvent.Linear.Elimination
import Resolvent.Linear.Tableau
import Resolvent.Number.Decimal
import Resolvent.Number.Digits
import Resolvent.Number.Double
import Resolvent.Number.Rational
import Resolvent.Number.Width
import Resolvent.Numeric.Complex
import Resolvent.Numeric.Continuum
import Resolvent.Numeric.Evaluation
import Resolvent.Numeric.Functions
import Resolvent.Numeric.RootSearch
import Resolvent.Preferences
import Resolvent.Rewriting.EqualityGraph
import Resolvent.Rewriting.Matching
import Resolvent.Rewriting.Rules
import Resolvent.Rewriting.Saturation
import Resolvent.Rewriting.Simplifier
import Resolvent.Solve.Answer
import Resolvent.Solve.Catalog
import Resolvent.Solve.Equation
import Resolvent.Solve.Linear
import Resolvent.Solve.Pass
import Resolvent.Solve.Polynomial
import Resolvent.Solve.Resolution
import Resolvent.Solve.Results
import Resolvent.Solve.Solution
import Resolvent.Solve.State
import Resolvent.Solve.Status
import Resolvent.Solve.Store
import Resolvent.Term.Basic
import Resolvent.Term.Import
import Resolvent.Term.OfArena
import Resolvent.Term.Reader
import Resolvent.Text.Blank
import Resolvent.Text.Letter
import Resolvent.Proofs.Expression.Along
import Resolvent.Proofs.Expression.Denotation
import Resolvent.Proofs.Expression.Encounters
import Resolvent.Proofs.Expression.Faithful
import Resolvent.Proofs.Expression.Growth
import Resolvent.Proofs.Expression.Identifiers
import Resolvent.Proofs.Expression.Imaginary
import Resolvent.Proofs.Expression.Layered
import Resolvent.Proofs.Expression.Lexing
import Resolvent.Proofs.Expression.Operands
import Resolvent.Proofs.Expression.Reading
import Resolvent.Proofs.Expression.Room
import Resolvent.Proofs.Expression.Semantics
import Resolvent.Proofs.Expression.Substitution
import Resolvent.Proofs.Expression.Tokens
import Resolvent.Proofs.Expression.Traversal
import Resolvent.Proofs.Expression.Unambiguous
import Resolvent.Proofs.Expression.Unfolded
import Resolvent.Proofs.Expression.Upkeep
import Resolvent.Proofs.Expression.WellFormed
import Resolvent.Proofs.Form.Arithmetic
import Resolvent.Proofs.Form.Branches
import Resolvent.Proofs.Form.Budget
import Resolvent.Proofs.Form.Built
import Resolvent.Proofs.Form.Canonical
import Resolvent.Proofs.Form.Chained
import Resolvent.Proofs.Form.ComplexParts
import Resolvent.Proofs.Form.Constant
import Resolvent.Proofs.Form.Display
import Resolvent.Proofs.Form.Exponents
import Resolvent.Proofs.Form.Factors
import Resolvent.Proofs.Form.Gaussian
import Resolvent.Proofs.Form.GeneralRoot
import Resolvent.Proofs.Form.Idempotence
import Resolvent.Proofs.Form.Identities
import Resolvent.Proofs.Form.Inlining
import Resolvent.Proofs.Form.Inverse
import Resolvent.Proofs.Form.Laws
import Resolvent.Proofs.Form.LinearCoefficients
import Resolvent.Proofs.Form.Made
import Resolvent.Proofs.Form.Monomials
import Resolvent.Proofs.Form.NormalForm
import Resolvent.Proofs.Form.Normalization
import Resolvent.Proofs.Form.NthRoot
import Resolvent.Proofs.Form.Numbers
import Resolvent.Proofs.Form.PerfectPower
import Resolvent.Proofs.Form.PerfectRoots
import Resolvent.Proofs.Form.PlainValue
import Resolvent.Proofs.Form.PolynomialCoefficients
import Resolvent.Proofs.Form.Power
import Resolvent.Proofs.Form.PrincipalPower
import Resolvent.Proofs.Form.Radical
import Resolvent.Proofs.Form.RadicalExtension
import Resolvent.Proofs.Form.Reachable
import Resolvent.Proofs.Form.RealValue
import Resolvent.Proofs.Form.Rebuilding
import Resolvent.Proofs.Form.Recursion
import Resolvent.Proofs.Form.RepeatedProduct
import Resolvent.Proofs.Form.RootBranches
import Resolvent.Proofs.Form.RoundTrip
import Resolvent.Proofs.Form.Run
import Resolvent.Proofs.Form.Settled
import Resolvent.Proofs.Form.Sorted
import Resolvent.Proofs.Form.Soundness
import Resolvent.Proofs.Form.Stability
import Resolvent.Proofs.Form.Stored
import Resolvent.Proofs.Form.Surds
import Resolvent.Proofs.Form.Symbols
import Resolvent.Proofs.Form.SymbolsOfExpression
import Resolvent.Proofs.Form.Tower
import Resolvent.Proofs.Form.Twist
import Resolvent.Proofs.Form.Unfolding
import Resolvent.Proofs.Form.Valuation
import Resolvent.Proofs.Form.Value
import Resolvent.Proofs.Form.Vector
import Resolvent.Proofs.Form.WordExtraction
import Resolvent.Proofs.Form.WordPowers
import Resolvent.Proofs.Linear.Echelon
import Resolvent.Proofs.Linear.Solutions
import Resolvent.Proofs.Linear.Transfer
import Resolvent.Proofs.Numeric.Decimals
import Resolvent.Proofs.Numeric.DoubleOrder
import Resolvent.Proofs.Numeric.ExactSearch
import Resolvent.Proofs.Numeric.Expansion
import Resolvent.Proofs.Numeric.Literal
import Resolvent.Proofs.Numeric.Overflow
import Resolvent.Proofs.Numeric.Quotients
import Resolvent.Proofs.Numeric.UnitCircle
import Resolvent.Proofs.Rewriting.Choices
import Resolvent.Proofs.Rewriting.Simplification
import Resolvent.Proofs.Rewriting.Simplifier
import Resolvent.Proofs.Rewriting.Vocabulary
import Resolvent.Proofs.Solve.Classification
import Resolvent.Proofs.Solve.Consistency
import Resolvent.Proofs.Solve.Cubic
import Resolvent.Proofs.Solve.Dependencies
import Resolvent.Proofs.Solve.Equality
import Resolvent.Proofs.Solve.EquationText
import Resolvent.Proofs.Solve.Growth
import Resolvent.Proofs.Solve.Isolation
import Resolvent.Proofs.Solve.LinearSystem
import Resolvent.Proofs.Solve.PerfectSquare
import Resolvent.Proofs.Solve.Polynomial
import Resolvent.Proofs.Solve.Presentation
import Resolvent.Proofs.Solve.RationalEquation
import Resolvent.Proofs.Solve.Rejection
import Resolvent.Proofs.Solve.Release
import Resolvent.Proofs.Solve.Repetition
import Resolvent.Proofs.Solve.Resolution
import Resolvent.Proofs.Solve.Room
import Resolvent.Proofs.Solve.RootOrder
import Resolvent.Proofs.Solve.Scaling
import Resolvent.Proofs.Solve.SearchInterval
import Resolvent.Proofs.Solve.Session
import Resolvent.Proofs.Solve.Symbols
import Resolvent.Proofs.Solve.Upkeep
import Resolvent.Proofs.Solve.Variables
import Resolvent.Proofs.Term.Agreement
import Resolvent.Proofs.Term.Lowering
import Resolvent.Proofs.Term.Meaning
import Resolvent.Proofs.Term.Placeholders

import WeightedCnf.Formula.Format
import WeightedCnf.Literal
import WeightedCnf.Stream.Basic
/-!
What makes a text no weighted formula. A weight that cannot be read is not among these: it is replaced by the
invalid weight.
-/

namespace WeightedCnf

/-- Why a formula cannot be read. -/
inductive FormulaError where
  | stream (cause : StreamError)
  | malformedHeader
  | negativeVariableCount (count : Int)
  | negativeClauseCount (count : Int)
  | malformedWeightLine
  /-- A weight line in a format that has none. -/
  | unexpectedWeightLine
  | literalOutOfRange (literal : Int) (variableCount : Nat)
  /-- A weight for a negative literal in a format that gives it the complement. -/
  | negativeLiteral (literal : Literal)
  /-- The token that stands for no weight, in a format that needs one. -/
  | missingWeight (format : WeightFormat)
  | supportNotInteger (token : List Char)
  | supportOutOfRange (number : Int) (variableCount : Nat)
  /-- The error was met where the weight of this literal was expected. -/
  | inWeightOf (literal : Literal) (cause : FormulaError)
  /-- The error was met in what starts on this line. -/
  | onLine (line : Nat) (cause : FormulaError)
deriving DecidableEq, Repr

namespace FormulaError

def causes : FormulaError → List String
  | stream cause => cause.causes
  | malformedHeader => ["malformed header"]
  | negativeVariableCount count =>
    [s!"negative variable count {count}", "number too small to fit in target type"]
  | negativeClauseCount count =>
    [s!"negative clause count {count}", "number too small to fit in target type"]
  | malformedWeightLine => ["malformed weight line"]
  | unexpectedWeightLine => ["w lines are not allowed in minic2d format"]
  | literalOutOfRange literal variableCount =>
    [s!"literal {literal} is out of range for {variableCount} variables"]
  | negativeLiteral literal =>
    [s!"weight of negative literal {literal.toInt} in cachet format"]
  | missingWeight format => [s!"weight -1 is not allowed in {format.name} format"]
  | supportNotInteger token =>
    ["in independent support", StreamError.expectedInteger token]
  | supportOutOfRange number variableCount =>
    [s!"variable {number} in independent support is out of range for {variableCount} variables"]
  | inWeightOf literal cause => s!"weight of {literal.toInt}" :: cause.causes
  | onLine line cause => s!"line {line}" :: cause.causes

end FormulaError

end WeightedCnf

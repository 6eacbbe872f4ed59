import WeightedCnf.Formula.Error
import WeightedCnf.Weight.Reading
/-!
What a run reports about its progress, apart from its result. Each event has a level, a message and named
values.
-/

namespace WeightedCnf

/-- How important an event is. -/
inductive Level where
  | trace
  | debug
  | info
  | warn
deriving DecidableEq, Repr

def Level.name : Level → String
  | trace => "TRACE"
  | debug => "DEBUG"
  | info => "INFO"
  | warn => "WARN"

/-- Something worth reporting. -/
inductive Event where
  | headerRead (variableCount clauseCount : Nat)
  | formatDetected (format : WeightFormat)
  | weightNotRead (cause : WeightError)
  | formulaNotRead (cause : FormulaError)
  /-- A variable keeps weights of which one is invalid. -/
  | invalidWeight (v : Variable)
  /-- A variable keeps weights of which one is negative. -/
  | negativeWeight (v : Variable) (positive negative : Weight)
  /-- A variable keeps weights that do not add up to one. -/
  | improbableWeights (v : Variable) (positive negative : Weight)
  /-- A variable keeps a weight that has no rounding. -/
  | unroundableWeight (v : Variable) (positive : Weight)
  /-- The weights of a variable were replaced by clauses over auxiliary variables. -/
  | weightsRemoved (v : Variable) (positive negative : Weight) (auxiliaries : Nat)
  /-- The rounded weight of a variable was replaced by clauses over auxiliary variables. -/
  | roundedWeightRemoved (v : Variable) (positive rounded : Weight) (auxiliaries : Nat)
  | reductionDone (denominator variableCount clauseCount : Nat)
  | reductionVerified
  | countsCompared (weighted : Rat) (count denominator : Nat)
  | countEstimated (estimate lower upper : Rat)
deriving DecidableEq

namespace Event

def level : Event → Level
  | headerRead .. => .trace
  | weightsRemoved .. | roundedWeightRemoved .. | countsCompared .. => .debug
  | formatDetected _ | reductionDone .. | reductionVerified | countEstimated .. => .info
  | weightNotRead _ | formulaNotRead _ | invalidWeight _ | negativeWeight ..
  | improbableWeights .. | unroundableWeight .. => .warn

def message : Event → String
  | headerRead .. => "read header"
  | formatDetected format => "detected weight format: " ++ format.name
  | weightNotRead cause => cause.message
  | formulaNotRead cause => "unable to parse formula: " ++ joinCauses cause.causes
  | invalidWeight _ => "skipping variable with invalid weight"
  | negativeWeight .. => "skipping variable with negative weight"
  | improbableWeights .. => "skipping variable with non-probabilistic weights"
  | unroundableWeight .. => "unable to round weight"
  | weightsRemoved .. | roundedWeightRemoved .. => "removed weight"
  | reductionDone .. => "reduction done"
  | reductionVerified => "reduction verified"
  | countsCompared .. => "brute force counts"
  | countEstimated .. => "approximate weighted model count"

def fields : Event → List (String × String)
  | headerRead variableCount clauseCount =>
    [("num_variables", toString variableCount), ("num_clauses", toString clauseCount)]
  | formatDetected _ | weightNotRead _ | formulaNotRead _ | reductionVerified => []
  | invalidWeight v => [number v]
  | negativeWeight v positive negative | improbableWeights v positive negative =>
    [number v, ("pos", weight positive), ("neg", weight negative)]
  | unroundableWeight v positive => [number v, ("pos", weight positive)]
  | weightsRemoved v positive negative auxiliaries =>
    [number v, ("pos", weight positive), ("neg", weight negative),
      ("auxiliary", toString auxiliaries)]
  | roundedWeightRemoved v positive rounded auxiliaries =>
    [number v, ("pos", weight positive), ("approx", weight rounded),
      ("auxiliary", toString auxiliaries)]
  | reductionDone denominator variableCount clauseCount =>
    [("denominator", toString denominator), ("variables", toString variableCount),
      ("clauses", toString clauseCount)]
  | countsCompared weighted count denominator =>
    [("weighted", rat weighted), ("count", toString count),
      ("denominator", toString denominator)]
  | countEstimated estimate lower upper =>
    [("estimate", rat estimate), ("lower", rat lower), ("upper", rat upper)]
where
  number (v : Variable) : String × String := ("variable", toString v.number)
  weight (w : Weight) : String := String.ofList w.text
  rat (q : Rat) : String := String.ofList (ratText q)

end Event

abbrev Log := Array Event

abbrev Logged (ε : Type) := EStateM ε Log

namespace Logged

def report {ε : Type} (event : Event) : Logged ε Unit :=
  modify (·.push event)

def lift {ε α : Type} : Except ε α → Logged ε α
  | .ok a => pure a
  | .error e => throw e

def mapError {ε δ α : Type} (f : ε → δ) (x : Logged ε α) : Logged δ α :=
  EStateM.adaptExcept f x

end Logged

end WeightedCnf

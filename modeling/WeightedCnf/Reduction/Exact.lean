import WeightedCnf.Reduction.Auxiliary
/-!
The exact reduction from weighted to unweighted counting. The weights of both literals of a variable are
brought to whole numbers over one denominator; then each value of the variable is given as many extensions to
auxiliary variables as its number says. The weighted count of the formula is the count of the reduced formula
divided by the product of the denominators.
-/

namespace WeightedCnf

/-- The weights of both literals of a variable as whole numbers over one denominator. -/
structure Shares where
  positive : Int
  negative : Int
  denominator : Int
deriving DecidableEq, Repr

namespace Shares

/-- Brings two weights to a common denominator. -/
def ofWeights (positive negative : Weight) : Shares :=
  if positive.denom = negative.denom then
    ⟨positive.num.toInt, negative.num.toInt, positive.denom.toInt⟩
  else
    ⟨positive.num.toInt * negative.denom.toInt, negative.num.toInt * positive.denom.toInt,
      positive.denom.toInt * negative.denom.toInt⟩

/-- Divides by the greatest common divisor and makes the denominator positive. -/
def normalize (s : Shares) : Shares :=
  let divisor : Int := Nat.gcd (Int.gcd s.positive s.negative) s.denominator.natAbs
  let divisor := if s.denominator < 0 then -divisor else divisor
  ⟨s.positive / divisor, s.negative / divisor, s.denominator / divisor⟩

end Shares

namespace Formula

/-- Adds the clauses that give one value of a variable `count` extensions: none when it is zero. The guard is
true for the other value. -/
def addShare (f : Formula) (guard : Literal) (auxiliaries : List Literal) (count : Nat) :
    Except Fault Formula :=
  if count = 0 then f.addClause [guard] else f.addGuardedChain guard auxiliaries count

def shares (f : Formula) (v : Variable) : Shares :=
  (Shares.ofWeights (f.weight v.positive) (f.weight v.negative)).normalize

/-- Removes the weights of a variable; the second component is the denominator. Weights that are invalid or
negative are left as they are, and so are two weights of one. -/
def removeWeights (f : Formula) (v : Variable) : Logged Fault (Formula × Nat) := do
  let positive := f.weight v.positive
  let negative := f.weight v.negative
  if !positive.isValid || !negative.isValid then
    Logged.report (.invalidWeight v)
    return (f, 1)
  let shares := f.shares v
  if shares.positive < 0 ∨ shares.negative < 0 then
    Logged.report (.negativeWeight v positive negative)
    return (f, 1)
  if shares = ⟨1, 1, 1⟩ then return (f, 1)
  let positiveCount := shares.positive.toNat
  let negativeCount := shares.negative.toNat
  let bits := bitLength (max positiveCount negativeCount)
  let (auxiliaries, f) ← Logged.lift (f.addAuxiliaries bits)
  let literals := auxiliaries.map Variable.positive
  let f ← Logged.lift (f.addShare v.negative literals positiveCount)
  let f ← Logged.lift (f.addShare v.positive literals negativeCount)
  Logged.report (.weightsRemoved v positive negative bits)
  return (f, shares.denominator.toNat)

/-- Removes all weights; the second component is the product of the denominators. -/
def reduce (f : Formula) : Logged Fault (Formula × Nat) := do
  (← Logged.lift f.freeVariables).foldlM
    (fun (f, denominator) v => do
      let (f, factor) ← f.removeWeights v
      return (f, denominator * factor))
    (f, 1)

end Formula

end WeightedCnf

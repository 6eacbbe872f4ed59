import WeightedCnf.Formula.Writing
import WeightedCnf.Reduction.Auxiliary
import WeightedCnf.Weight.Rounding
/-!
The dyadic reduction from weighted to unweighted counting. Weights that add up to one are first rounded to
multiples of a power of two; then few auxiliary variables are enough, and they determine the value of their
variable. How far the result is off is bounded by two exact factors.
-/

namespace WeightedCnf

/-- A weight that was rounded, possibly to itself. -/
structure Adjustment where
  var : Variable
  original : Weight
  rounded : Weight
deriving DecidableEq, Repr

/-- The outcome of a dyadic reduction, apart from the formula. -/
structure DyadicReduction where
  /-- The approximate weighted count is the count of the reduced formula divided by this. -/
  denominator : Nat
  /-- The weights that were rounded, in the order of their variables. -/
  adjustments : List Adjustment
deriving DecidableEq, Repr

namespace DyadicReduction

/-- The lower and the upper bound after one more weight. The weights of both literals are off by factors of
which one is at most one and the other at least one. -/
def widen (bounds : Rat × Rat) (a : Adjustment) : Rat × Rat :=
  match a.original.toRat?, a.rounded.toRat? with
  | some real, some rounded =>
    if real = rounded ∨ rounded = 0 ∨ rounded = 1 then bounds
    else
      let positive := real / rounded
      let negative := (1 - real) / (1 - rounded)
      if rounded < real then (bounds.1 * negative, bounds.2 * positive)
      else (bounds.1 * positive, bounds.2 * negative)
  | _, _ => bounds

/-- Two factors: the weighted count of the original formula is between the lower and the upper one times the
count of the reduced formula divided by the denominator. -/
def bounds (r : DyadicReduction) : Rat × Rat :=
  r.adjustments.foldl widen (1, 1)

end DyadicReduction

/-- Why a formula is not reduced. -/
inductive DyadicError where
  | bitsOutOfRange (bits : Nat)
deriving DecidableEq, Repr

abbrev DyadicReduction.maxBits : Nat := 62

def DyadicError.causes : DyadicError → List String
  | bitsOutOfRange bits =>
    [s!"bits per weight must be between 1 and {DyadicReduction.maxBits}, not {bits}"]

namespace Formula

/-- Removes a rounded weight; the second component is the denominator. A weight of one half needs no auxiliary
variables, and weights of zero and one no variable that is free. Otherwise the auxiliary variables count up
for the positive literal and down for the negative one, so that each of their assignments fits one value. -/
def removeRounded (f : Formula) (v : Variable) (positive rounded : Weight) :
    Logged Fault (Formula × Nat) := do
  if rounded = .half then return (f, 2)
  if rounded.num = 0 then return (← Logged.lift (f.addClause [v.negative]), 1)
  if rounded.num = rounded.denom then return (← Logged.lift (f.addClause [v.positive]), 1)
  let denominator := rounded.denom.toInt.toNat
  let bits := bitLength (denominator - 1)
  let (auxiliaries, f) ← Logged.lift (f.addAuxiliaries bits)
  let up := auxiliaries.map Variable.positive
  let down := auxiliaries.map Variable.negative
  let f ← Logged.lift (f.addGuardedChain v.negative up rounded.num.toInt.toNat)
  let rest ← Logged.lift rounded.complement
  let f ← Logged.lift (f.addGuardedChain v.positive down rest.num.toInt.toNat)
  Logged.report (.roundedWeightRemoved v positive rounded bits)
  return (f, denominator)

/-- Rounds and removes the weights of a variable, if they add up to one and none is negative. A variable without
weights counts twice. -/
def roundWeights (denom : Int64) (rounding : Rounding) (f : Formula) (v : Variable) :
    Logged Fault (Formula × Nat × List Adjustment) := do
  let positive ← Logged.lift (f.weight v.positive).simplify
  let negative ← Logged.lift (f.weight v.negative).simplify
  if positive = .one ∧ negative = .one then return (f, 2, [])
  if positive.denom.toInt ≤ 0 ∨ negative.denom.toInt ≤ 0 then
    Logged.report (.invalidWeight v)
    return (f, 1, [])
  if positive.denom ≠ negative.denom ∨
      positive.num.toInt + negative.num.toInt ≠ positive.denom.toInt then
    Logged.report (.improbableWeights v positive negative)
    return (f, 1, [])
  if positive.num.toInt < 0 ∨ negative.num.toInt < 0 then
    Logged.report (.negativeWeight v positive negative)
    return (f, 1, [])
  let rounded ← Logged.lift (positive.round denom rounding).simplify
  if !rounded.isValid then
    Logged.report (.unroundableWeight v positive)
    return (f, 1, [])
  let f := f.addComment
    ("adjust w ".toList ++ unwords [Text.Decimal.digits v.number, positive.text, "to".toList,
      rounded.text])
  let (f, factor) ← f.removeRounded v positive rounded
  return (f, factor, [⟨v, positive, rounded⟩])

/-- Removes all weights that add up to one, after rounding them to multiples of two to the minus `bits`. -/
def reduceDyadic (f : Formula) (bits : Nat) (rounding : Rounding) :
    Logged (Stop DyadicError) (Formula × DyadicReduction) := do
  unless 1 ≤ bits && bits ≤ DyadicReduction.maxBits do throw (.error (.bitsOutOfRange bits))
  Logged.mapError .fault do
    (← Logged.lift f.freeVariables).foldlM
      (fun (f, r) v => do
        let (f, factor, adjustments) ← f.roundWeights (.ofNat (1 <<< bits)) rounding v
        return (f, { r with
          denominator := r.denominator * factor
          adjustments := r.adjustments ++ adjustments }))
      (f, ⟨1, []⟩)

end Formula

end WeightedCnf

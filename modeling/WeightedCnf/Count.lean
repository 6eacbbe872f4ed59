import Std.Data.TreeSet
import WeightedCnf.Assignment
import WeightedCnf.Cnf.Dimacs
import WeightedCnf.Event
import WeightedCnf.Formula.Writing
/-!
Model counts by enumeration of all assignments, to check reductions of small formulas. Assignments that differ
only outside of the support count once.
-/

namespace WeightedCnf

/-- Why models are not counted. -/
inductive CountError where
  | tooManyVariables (count : Nat)
  | wrongProjectionSize (size variableCount : Nat)
  | invalidWeight (v : Variable)
  /-- The written formula cannot be read. -/
  | unreadable (cause : DimacsError)
deriving DecidableEq, Repr

def CountError.causes : CountError → List String
  | tooManyVariables count =>
    [s!"refusing to enumerate the models of a formula with {count} variables"]
  | wrongProjectionSize size variableCount =>
    [s!"projection on {size} variables for a formula with {variableCount} variables"]
  | invalidWeight v => [s!"invalid weight for variable {v.number}"]
  | unreadable cause =>
    ["converting formula for enumeration", "parsing written formula", cause.message]

abbrev Count.maxVariables : Nat := 30

namespace Assignment

/-- Passes an assignment and those after it to `f`, at most `fuel` of them, until the last one. -/
def foldFrom {β : Type} (f : β → Assignment → β) : (fuel : Nat) → Assignment → β → β
  | 0, _, b => b
  | fuel + 1, a, b =>
    match a.next with
    | (true, a') => foldFrom f fuel a' (f b a)
    | (false, _) => f b a

def fold {β : Type} (f : β → Assignment → β) (size : Nat) (b : β) : β :=
  foldFrom f (1 <<< size) (first size) b

end Assignment

namespace Cnf

def restrictedModels (cnf : Cnf) (p : Projection) : Std.TreeSet Assignment :=
  Assignment.fold (fun models a => if a.satisfies cnf.clauses then models.insert (a.restrict p) else models)
    cnf.variableCount ∅

def modelCount (cnf : Cnf) : Nat :=
  Assignment.fold (fun n a => if a.satisfies cnf.clauses then n + 1 else n) cnf.variableCount 0

def count (cnf : Cnf) (projection : Option Projection) : Except CountError Nat := do
  if Count.maxVariables < cnf.variableCount then throw (.tooManyVariables cnf.variableCount)
  match projection with
  | none => return cnf.modelCount
  | some p =>
    if p.size ≠ cnf.variableCount then throw (.wrongProjectionSize p.size cnf.variableCount)
    return (cnf.restrictedModels p).size

end Cnf

namespace Formula

/-- The formula without weights and support, in structured form, as it reads when it is written. -/
def toCnf (f : Formula) : Except DimacsError Cnf := do
  return { ← Dimacs.read f.bytes with variableCount := f.variableCount }

/-- The projection onto the support, or none when all variables matter. A variable of the support can be
beyond the announced ones. -/
def projection? (f : Formula) : Except Fault (Option Projection) := do
  if f.support.isEmpty then return none
  else return some (← Projection.ofList f.variableCount f.support.toList)

def count (f : Formula) : Attempt CountError Nat := do
  let cnf ← Attempt.ofError (f.toCnf.mapError .unreadable)
  let projection ← Attempt.ofFault f.projection?
  Attempt.ofError (cnf.count projection)

def exactWeight (f : Formula) (l : Literal) : Except CountError Rat :=
  match (f.weight l).toRat? with
  | some q => .ok q
  | none => .error (.invalidWeight l.var)

def exactWeights (f : Formula) (p : Projection) : Except CountError (List (Variable × Rat × Rat)) :=
  (List.range p.size).filterMapM fun index => do
    if h : index < Variable.limit then
      let v : Variable := ⟨index, h⟩
      if p.contains index then
        return some (v, ← f.exactWeight v.positive, ← f.exactWeight v.negative)
      else return none
    else return none

end Formula

/-- The product of the weights of the literals that an assignment makes true. -/
def Assignment.product (weights : List (Variable × Rat × Rat)) (a : Assignment) : Rat :=
  weights.foldl (fun product (v, positive, negative) =>
    product * if a.var v then positive else negative) 1

namespace Formula

/-- The sum of the weights of the models of a formula, restricted to its support. -/
def weightedCount (f : Formula) : Attempt CountError Rat := do
  let cnf ← Attempt.ofError (f.toCnf.mapError .unreadable)
  if Count.maxVariables < cnf.variableCount then
    throw (.error (.tooManyVariables cnf.variableCount))
  let projection := (← Attempt.ofFault f.projection?).getD (.all cnf.variableCount)
  let weights ← Attempt.ofError (f.exactWeights projection)
  return (cnf.restrictedModels projection).foldl (fun sum a => sum + a.product weights) 0

end Formula

/-- Why a reduction is not confirmed. -/
inductive CheckError where
  | weighted (cause : CountError)
  | reduced (cause : CountError)
  | mismatch (count denominator : Nat)
deriving DecidableEq, Repr

def CheckError.causes : CheckError → List String
  | weighted cause => "counting models of the weighted formula" :: cause.causes
  | reduced cause => "counting models of the reduced formula" :: cause.causes
  | mismatch count denominator =>
    [s!"reduced formula has {count} models, expected {denominator} times the weighted count of the original formula"]

/-- Confirms that the weighted count of the original formula is the count of the reduced one divided by the
denominator. -/
def checkReduction (original reduced : Formula) (denominator : Nat) :
    Logged (Stop CheckError) Unit := do
  let weighted ← Logged.lift (original.weightedCount.mapError (Stop.map .weighted))
  let count ← Logged.lift (reduced.count.mapError (Stop.map .reduced))
  Logged.report (.countsCompared weighted count denominator)
  if weighted * denominator ≠ count then throw (.error (.mismatch count denominator))

end WeightedCnf

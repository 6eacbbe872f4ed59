import WeightedCnf.Event
import WeightedCnf.Formula.Basic
/-!
What both reductions add to a formula: auxiliary variables, and chains over them that bind only when a guard
is false.
-/

namespace WeightedCnf.Formula

/-- Adds `count` variables, which belong to the support if the formula has one. -/
def addAuxiliaries (f : Formula) : (count : Nat) → Except Fault (List Variable × Formula)
  | 0 => return ([], f)
  | count + 1 => do
    let (v, g) ← f.addVariable
    let g := if f.support.isEmpty then g else g.addSupport v
    let (vs, g) ← g.addAuxiliaries count
    return (v :: vs, g)

/-- Adds the clauses of a chain, with a guard in front of each. -/
def addGuardedChain (f : Formula) (guard : Literal) (literals : List Literal) (count : Nat) :
    Except Fault Formula := do
  f.addClauses ((← Chain.clauses literals count).map (guard :: ·))

end WeightedCnf.Formula

namespace WeightedCnf

def bitLength (n : Nat) : Nat :=
  if n = 0 then 0 else n.log2 + 1

end WeightedCnf

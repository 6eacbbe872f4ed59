import WeightedCnf.Literal
import WeightedCnf.Chain
/-!
Formulas in conjunctive normal form, in structured form and without weights.
-/

namespace WeightedCnf

/-- Clauses over the first variables. -/
structure Cnf where
  /-- No variable of the clauses has a larger number. -/
  variableCount : Nat
  clauses : List Clause
deriving DecidableEq, Repr

namespace Cnf

def largestVariable (clauses : List Clause) : Nat :=
  clauses.foldl (fun n clause => clause.foldl (fun n l => max n l.var.number) n) 0

/-- These clauses over at least this many variables. -/
def ofClauses (variableCount : Nat) (clauses : List Clause) : Cnf :=
  ⟨max variableCount (largestVariable clauses), clauses⟩

end Cnf

end WeightedCnf

import WeightedCnf.Chain
import WeightedCnf.Formula.Format
import WeightedCnf.Formula.Support
import WeightedCnf.Weight.Basic
/-!
Weighted formulas. What was read is kept as lines of text, and what is added is kept in structured form, so
that a formula can be written again without having been understood.
-/

namespace WeightedCnf

/-- A line of the body of a formula. -/
inductive Line where
  /-- A line of the input, which may be a clause, a part of one, or a comment. -/
  | raw (text : List Char)
  /-- An added clause. -/
  | clause (literals : Clause)
  /-- An added comment, without the leading `c` and the space behind it. -/
  | comment (text : List Char)
deriving DecidableEq, Repr

abbrev Weights := Std.TreeMap Literal Weight

/-- A formula in conjunctive normal form with weights on its literals. -/
structure Formula where
  /-- The number of variables that the header announces. -/
  variableCount : Nat := 0
  /-- The number of clauses that the header announces. -/
  clauseCount : Nat := 0
  body : Array Line := #[]
  /-- The variables that matter, or none when all do. -/
  support : Support := .empty
  weights : Weights := ∅
  format : WeightFormat := .detect

namespace Formula

def ofCounts (variableCount clauseCount : Nat) : Formula :=
  { variableCount, clauseCount }

def setCounts (f : Formula) (variableCount clauseCount : Nat) : Formula :=
  { f with variableCount, clauseCount }

def addLine (f : Formula) (line : Line) : Formula :=
  { f with body := f.body.push line }

def addComment (f : Formula) (text : List Char) : Formula :=
  f.addLine (.comment text)

/-- Adds a clause at the end. The number of clauses is a 64-bit word. -/
def addClause (f : Formula) (clause : Clause) : Except Fault Formula :=
  if f.clauseCount + 1 < UInt64.size then
    .ok { f.addLine (.clause clause) with clauseCount := f.clauseCount + 1 }
  else .error .overflow

def addClauses (f : Formula) (clauses : List Clause) : Except Fault Formula :=
  clauses.foldlM addClause f

def addVariable (f : Formula) : Except Fault (Variable × Formula) := do
  let v ← Variable.ofNumber (f.variableCount + 1)
  return (v, { f with variableCount := f.variableCount + 1 })

/-- The weight of a literal, one when it was given none. -/
def weight (f : Formula) (l : Literal) : Weight :=
  (f.weights[l]?).getD .one

/-- Gives a weight to a literal that has none yet. -/
def setWeight (f : Formula) (l : Literal) (w : Weight) : Formula :=
  { f with weights := f.weights.insertIfNew l w }

def hasLiteral (f : Formula) (n : Int) : Bool :=
  n != 0 && n.natAbs ≤ f.variableCount

def addSupport (f : Formula) (v : Variable) : Formula :=
  { f with support := f.support.insert v }

/-- The variables that matter: the support, or all variables when it is empty. -/
def freeVariables (f : Formula) : Except Fault (List Variable) :=
  if f.support.isEmpty then Variable.first f.variableCount else .ok f.support.toList

/-- Gives a negative literal the complement of the weight of its variable, and both literals one half when
the variable has no weight. -/
def completeWeights (f : Formula) (v : Variable) : Except Fault Formula :=
  match f.weights[v.positive]? with
  | some w => return f.setWeight v.negative (← w.complement)
  | none => return (f.setWeight v.positive .half).setWeight v.negative .half

def completeAllWeights (f : Formula) : Except Fault Formula := do
  (← Variable.first f.variableCount).foldlM completeWeights f

end Formula

end WeightedCnf

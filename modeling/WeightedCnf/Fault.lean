/-!
How a computation can stop early. A fault is a broken precondition: nothing recovers from it and the
whole run is abandoned. An error is an answer like any other, handed to the caller.
-/

namespace WeightedCnf

/-- A broken precondition. -/
inductive Fault where
  /-- A machine integer cannot hold the result. -/
  | overflow
  /-- No variable has this number. -/
  | noSuchVariable (number : Int)
  /-- Without variables no set of clauses over them is unsatisfiable, save the empty clause. -/
  | unsatisfiableChain
  /-- So few variables do not have that many assignments. -/
  | tooManyModels (count variableCount : Nat)
  /-- An index outside a set of fixed size. -/
  | indexOutOfRange (index size : Nat)
  /-- A stream without a buffer. -/
  | emptyBuffer
deriving DecidableEq, Repr

namespace Fault

def message : Fault → String
  | overflow => "arithmetic overflow"
  | noSuchVariable number => s!"there is no variable {number}"
  | unsatisfiableChain => "cannot build an unsatisfiable chain formula without variables"
  | tooManyModels count variableCount =>
    s!"unable to form {count} solutions with {variableCount} variables"
  | indexOutOfRange index size => s!"index {index} is out of range for a set of {size}"
  | emptyBuffer => "the buffer of a stream cannot be empty"

end Fault

/-- Why a computation that can be refused did not finish. -/
inductive Stop (ε : Type) where
  /-- A precondition was broken. -/
  | fault (cause : Fault)
  /-- The input was refused. -/
  | error (cause : ε)
deriving DecidableEq, Repr

def Stop.map {ε δ : Type} (f : ε → δ) : Stop ε → Stop δ
  | fault cause => fault cause
  | error cause => error (f cause)

abbrev Attempt (ε : Type) := Except (Stop ε)

def Attempt.ofFault {ε α : Type} (x : Except Fault α) : Attempt ε α :=
  x.mapError .fault

def Attempt.ofError {ε α : Type} (x : Except ε α) : Attempt ε α :=
  x.mapError .error

/-- The wording of an error with all its contexts, the outermost first. -/
def joinCauses (causes : List String) : String :=
  ": ".intercalate causes

end WeightedCnf

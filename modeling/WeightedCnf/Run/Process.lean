import WeightedCnf.Count
import WeightedCnf.Formula.Reading
import WeightedCnf.Reduction.Exact
import WeightedCnf.Run.Options
import WeightedCnf.Run.Report
import WeightedCnf.Run.Sink
/-!
A run: reading a weighted formula, reducing it, writing the reduced formula, and checking it if that is asked
for. The output starts with comments that tell how to get the weighted count from the count of the formula
that follows.
-/

namespace WeightedCnf

/-- Why a run fails. -/
inductive RunError where
  | unreadable
  | notReduced (cause : DyadicError)
  /-- The comments in front of the formula could not be written. -/
  | commentsNotWritten (cause : SinkError)
  | formulaNotWritten (cause : SinkError)
  | notVerified (cause : CheckError)
  | notCounted (cause : CountError)
deriving DecidableEq, Repr

def RunError.causes : RunError → List String
  | unreadable => ["unable to read formula"]
  | notReduced cause => cause.causes
  | commentsNotWritten cause => [cause.message]
  | formulaNotWritten cause => ["writing output formula", cause.message]
  | notVerified cause => "verifying reduction" :: cause.causes
  | notCounted cause => "counting models of the reduced formula" :: cause.causes

/-- What a run has done so far. -/
structure Run.Progress where
  /-- The text that was written. -/
  written : List Char := []
  log : Log := #[]

abbrev Run := EStateM (Stop RunError) Run.Progress

/-- A reduced formula that is not written yet. -/
structure Reduced where
  /-- The formula as it was read. -/
  original : Formula
  formula : Formula
  denominator : Nat
  /-- What a dyadic reduction did. -/
  dyadic : Option DyadicReduction

namespace Run

def logged {ε α : Type} (f : ε → Stop RunError) (x : Logged ε α) : Run α := fun p =>
  match x p.log with
  | .ok a log => .ok a { p with log }
  | .error e log => .error (f e) { p with log }

/-- Writes a text; `f` tells what it means that the sink refuses it. -/
def write (sink : Sink) (f : SinkError → RunError) (text : List Char) : Run Unit := fun p =>
  match sink.write p.written text with
  | .ok written => .ok () { p with written }
  | .error e => .error (.error (f e)) p

def reduce (options : Options) (source : Source) : Run Reduced := do
  let f ← logged .fault (Formula.parse source options.format)
  if f.variableCount = 0 then throw (.error .unreadable)
  let reduced ← match options.dyadic with
    | some bits => do
      let (g, r) ← logged (Stop.map .notReduced) (f.reduceDyadic bits options.rounding)
      pure { original := f, formula := g, denominator := r.denominator, dyadic := some r }
    | none => do
      let (g, denominator) ← logged .fault f.reduce
      pure { original := f, formula := g, denominator, dyadic := none }
  logged .fault <| Logged.report <|
    .reductionDone reduced.denominator reduced.formula.variableCount reduced.formula.clauseCount
  return reduced

end Run

namespace Reduced

/-- The comments in front of the formula; `seconds` is the time that the reduction took. -/
def comments (r : Reduced) (seconds : List Char) : List (List Char) :=
  let bounds := match r.dyadic with
    | none => []
    | some d =>
      let (lower, upper) := d.bounds
      let text (q : Rat) := Binary64.text Binary64.plain (Binary64.ofRat q)
      ["c weight adjustment ".toList ++ unwords [text lower, text upper]]
  ("c denom ".toList ++ Text.Decimal.digits r.denominator) ::
    (bounds ++ ["c deweight time ".toList ++ seconds])

def report (r : Reduced) : Report where
  denominator := r.denominator
  format := r.formula.format
  «variables» := r.formula.variableCount
  clauses := r.formula.clauseCount
  adjustments := match r.dyadic with
    | none => []
    | some d => d.adjustments
  bounds := r.dyadic.map fun d => (Binary64.ofRat d.bounds.1, Binary64.ofRat d.bounds.2)

def write (r : Reduced) (sink : Sink) (seconds : List Char) : Run Unit := do
  Run.write sink .commentsNotWritten (unlines (r.comments seconds))
  Run.write sink .formulaNotWritten r.formula.text
  if let .error e := sink.flush then throw (.error (.formulaNotWritten e))

/-- Checks an exact reduction, or estimates the weighted count after a dyadic one. -/
def verify (r : Reduced) : Run Unit :=
  match r.dyadic with
  | none => do
    Run.logged (Stop.map .notVerified) (checkReduction r.original r.formula r.denominator)
    Run.logged .fault (Logged.report .reductionVerified)
  | some d => do
    let count ← Run.logged (Stop.map .notCounted) (Logged.lift r.formula.count)
    let estimate : Rat := count / r.denominator
    let (lower, upper) := d.bounds
    Run.logged .fault <| Logged.report <|
      .countEstimated estimate (estimate * lower) (estimate * upper)

def complete (r : Reduced) (options : Options) (sink : Sink) (seconds : List Char) :
    Run Report := do
  r.write sink seconds
  if options.verify then r.verify
  return r.report

end Reduced

/-- Reads a weighted formula and writes the reduced one. -/
def process (options : Options) (source : Source) (sink : Sink) (seconds : List Char) :
    Run Report := do
  (← Run.reduce options source).complete options sink seconds

end WeightedCnf

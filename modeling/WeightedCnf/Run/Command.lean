import WeightedCnf.Run.Process
/-!
The command line. Where files are and what output is shown is left to a host, so that the same command can run
in a file system and in a directory kept in memory.
-/

namespace WeightedCnf

/-- Why the system refuses to open a file. -/
structure SystemError where
  description : String
  code : Nat
deriving DecidableEq, Repr

def SystemError.message (e : SystemError) : String :=
  s!"{e.description} (os error {e.code})"

/-- What a command needs from where it runs. A file is named by its path; no path stands for the standard input
or output. -/
structure Host (m : Type → Type) where
  /-- Finds a file that is to be read. -/
  find : String → m (Except SystemError Unit)
  /-- Creates a file, or empties it. -/
  create : String → m (Except SystemError Unit)
  /-- What comes from a file that was found. -/
  source : Option String → m Source
  /-- Writes a text to a file that was created. -/
  write : Option String → List Char → m Unit
  /-- Shows an event. -/
  note : Event → m Unit
  /-- Shows what went wrong. -/
  complain : String → m Unit
  /-- Evaluates, and tells how many microseconds it took. -/
  timed {α : Type} : (Unit → α) → m (α × Nat)

/-- How a command ends. -/
inductive Exit where
  | success
  | failure
  /-- A precondition was broken. -/
  | fault
deriving DecidableEq, Repr

def Exit.code : Exit → Nat
  | success => 0
  | failure => 1
  | fault => 101

def secondsText (microseconds : Nat) : List Char :=
  let places := Text.Decimal.digits (microseconds % 1000000)
  Text.Decimal.digits (microseconds / 1000000) ++
    '.' :: List.replicate (6 - places.length) '0' ++ places

namespace Command

def hang (indent : String) (text : String) : String :=
  String.intercalate ("\n" ++ indent) (text.splitOn "\n")

def explain : List String → String
  | [] => ""
  | [message] => "Error: " ++ message ++ "\n"
  | [message, cause] => "Error: " ++ message ++ "\n\nCaused by:\n    " ++ hang "    " cause ++ "\n"
  | message :: causes =>
    let numbered := causes.zipIdx.map fun (cause, n) =>
      s!"    {n}: " ++ hang "       " cause ++ "\n"
    "Error: " ++ message ++ "\n\nCaused by:\n" ++ String.join numbered

def version : String := "deweight 0.1.0\n"

def usage : String :=
  "Reduces weighted model counting to unweighted model counting\n\n" ++
  "USAGE:\n    deweight [FLAGS] [OPTIONS] [input]\n\n" ++
  "FLAGS:\n" ++
  "        --debug      Enable debug output\n" ++
  "    -h, --help       Prints help information\n" ++
  "    -V, --version    Prints version information\n" ++
  "        --verify     Check the reduction by enumerating models. Only for tiny formulas\n\n" ++
  "OPTIONS:\n" ++
  "    -d, --dyadic <dyadic>        Use the dyadic reduction with this many bits per weight (1 to 62)\n" ++
  "    -j, --json <json>            JSON output to the specified file\n" ++
  "    -o, --output <output>        Where to write the unweighted CNF formula, standard output when absent\n" ++
  "    -r, --rounding <rounding>    How to round the weight of positive literals in the dyadic reduction: " ++
    "up, down (default) or near\n" ++
  "    -w, --weights <weights>      Format of the weights in the input: " ++
    "detect (default), cachet, minic2d or mc20\n\n" ++
  "ARGS:\n    <input>    Weighted CNF file, standard input when absent\n"

def complaint : UsageError → String
  | .unknownArgument argument =>
    "error: Found argument '" ++ argument ++ "' which wasn't expected, or isn't valid in this context\n"
  | .invalidValue value => "error: '" ++ value ++ "' isn't a valid value\n"
  | .malformedValue value => "error: Invalid value: '" ++ value ++ "' is not a number\n"
  | .missingValue => "error: An argument requires a value but none was supplied\n"
  | .repeatedUse => "error: An argument was provided more than once, but cannot be used multiple times\n"
  | .help | .version => ""

variable {m : Type → Type} [Monad m]

/-- Shows the events that belong to the chosen amount of output. -/
def showAll (host : Host m) (options : Options) (log : Log) : m Unit :=
  log.forM fun event =>
    if options.debug || event.level == .info || event.level == .warn then host.note event
    else pure ()

def perform (host : Host m) (options : Options) : m Exit := do
  let source ← host.source options.input
  let (reduced, microseconds) ← host.timed fun _ => Run.reduce options source {}
  let result := match reduced with
    | .ok r progress => (r.complete options {} (secondsText microseconds)) progress
    | .error e progress => .error e progress
  let progress := match result with
    | .ok _ progress => progress
    | .error _ progress => progress
  showAll host options progress.log
  host.write options.output progress.written
  match result with
  | .ok report _ =>
    if options.report.isSome then
      host.write options.report (report.text (microseconds / 1000))
    return .success
  | .error (.error e) _ =>
    host.complain (explain e.causes)
    return .failure
  | .error (.fault e) _ =>
    host.complain ("fault: " ++ e.message ++ "\n")
    return .fault

/-- Opens the input and creates the output, in this order, and runs. -/
def openAndPerform (host : Host m) (options : Options) : m Exit := do
  if let some path := options.input then
    if let .error e ← host.find path then
      host.complain (explain ["opening input file " ++ path, e.message])
      return .failure
  if let some path := options.output then
    if let .error e ← host.create path then
      host.complain (explain ["opening output file " ++ path, e.message])
      return .failure
  perform host options

/-- Runs the command with these arguments. The file of the report is created before anything else. -/
def run (host : Host m) (arguments : List String) : m Exit := do
  match Options.read arguments with
  | .error .help =>
    host.write none usage.toList
    return .success
  | .error .version =>
    host.write none version.toList
    return .success
  | .error e =>
    host.complain (complaint e)
    return .failure
  | .ok options =>
    if let some path := options.report then
      if let .error e ← host.create path then
        host.complain
          ("failed to open " ++ path ++ " to write results (--json option): " ++ e.message ++ "\n")
        return .failure
    openAndPerform host options

end Command

end WeightedCnf

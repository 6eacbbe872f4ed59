import WeightedCnf.Formula.Format
import WeightedCnf.Text.Decimal
import WeightedCnf.Weight.Rounding
/-!
The options of a run, and how they are given as arguments. The value of an option follows in the next
argument, or in the same one, with or without an equals sign; after two hyphens nothing is an option.
-/

namespace WeightedCnf

/-- What a run is asked to do. -/
structure Options where
  /-- The file of the formula, or none for the standard input. -/
  input : Option String := none
  /-- The file for the reduced formula, or none for the standard output. -/
  output : Option String := none
  /-- The number of binary digits for a dyadic reduction, or none for an exact one. -/
  dyadic : Option Nat := none
  rounding : Rounding := .down
  format : WeightFormat := .detect
  /-- The file for the report, if there is to be one. -/
  report : Option String := none
  /-- Whether the reduction is checked by counting models. -/
  verify : Bool := false
  /-- Whether every event is shown. -/
  debug : Bool := false
deriving DecidableEq, Repr

/-- Why arguments do not give options. -/
inductive UsageError where
  | unknownArgument (argument : String)
  /-- None of the possible values. -/
  | invalidValue (value : String)
  /-- Not the kind of value that the option takes. -/
  | malformedValue (value : String)
  | missingValue
  | repeatedUse
  /-- No error: help is asked for. -/
  | help
  /-- No error: the version is asked for. -/
  | version
deriving DecidableEq, Repr

namespace Options

/-- An option that takes a value. -/
inductive Key where
  | output
  | dyadic
  | rounding
  | format
  | report
deriving DecidableEq, Repr

/-- An option without value. -/
inductive Switch where
  | verify
  | debug
  | help
  | version
deriving DecidableEq, Repr

def Key.ofName? (name : List Char) : Option Key :=
  [("output", Key.output), ("dyadic", .dyadic), ("rounding", .rounding), ("weights", .format),
    ("json", .report)].findSome? fun (n, key) => if n.toList = name then some key else none

def Key.ofLetter? : Char → Option Key
  | 'o' => some .output
  | 'd' => some .dyadic
  | 'r' => some .rounding
  | 'w' => some .format
  | 'j' => some .report
  | _ => none

def Switch.ofName? (name : List Char) : Option Switch :=
  [("verify", Switch.verify), ("debug", .debug), ("help", .help), ("version", .version)].findSome?
    fun (n, switch) => if n.toList = name then some switch else none

def Switch.ofLetter? : Char → Option Switch
  | 'h' => some .help
  | 'V' => some .version
  | _ => none

/-- Arguments as they were understood, before values are looked at. -/
structure Given where
  input : Option String := none
  /-- The options used, each as often as it was. -/
  keys : List Key := []
  /-- The values given, in order. -/
  values : List (Key × String) := []
  switches : List Switch := []
  /-- The option that still waits for its value. -/
  waiting : Option Key := none
  /-- Whether options are over. -/
  ended : Bool := false

namespace Given

/-- An option, with its value if it came along; equals signs before the value do not count. -/
def use (g : Given) (key : Key) (value : Option (List Char)) : Given :=
  match value with
  | none => { g with keys := key :: g.keys, waiting := some key }
  | some value =>
    { g with
      keys := key :: g.keys
      values := g.values ++ [(key, String.ofList (value.dropWhile (· == '=')))]
      waiting := none }

/-- A switch. Help and version are answered at once. -/
def turn (g : Given) : Switch → Except UsageError Given
  | .help => .error .help
  | .version => .error .version
  | switch => .ok { g with switches := switch :: g.switches, waiting := none }

def long (g : Given) (argument : String) : Except UsageError Given :=
  let body := argument.toList.dropWhile (· == '-')
  let name := body.takeWhile (· != '=')
  let value := if '=' ∈ body then some ((body.dropWhile (· != '=')).drop 1) else none
  match Key.ofName? name, Switch.ofName? name with
  | some key, _ => .ok (g.use key value)
  | none, some switch => g.turn switch
  | none, none => .error (.unknownArgument argument)

/-- An argument that starts with one hyphen. An option takes what follows its letter as its value. -/
def short (g : Given) (argument : String) : Except UsageError Given :=
  match argument.toList.dropWhile (· == '-') with
  | [] => .error (.unknownArgument argument)
  | letter :: others =>
    match Key.ofLetter? letter, Switch.ofLetter? letter with
    | some key, _ => .ok (g.use key (if others.isEmpty then none else some others))
    | none, some switch => g.turn switch
    | none, none => .error (.unknownArgument argument)

/-- An argument that is no option: a value if one is waited for, and otherwise the input. -/
def plain (g : Given) (argument : String) : Except UsageError Given :=
  match if g.ended then none else g.waiting with
  | some key => .ok { g with values := g.values ++ [(key, argument)], waiting := none }
  | none =>
    if g.input.isSome then .error (.unknownArgument argument)
    else .ok { g with input := some argument }

def feed (g : Given) (argument : String) : Except UsageError Given :=
  if g.ended then g.plain argument
  else match argument.toList with
    | ['-', '-'] => .ok { g with ended := true }
    | '-' :: '-' :: _ => g.long argument
    | ['-'] => g.plain argument
    | '-' :: _ => g.short argument
    | _ => g.plain argument

def valuesOf (g : Given) (key : Key) : List String :=
  g.values.filterMap fun (k, value) => if k = key then some value else none

end Given

/-- A 32-bit number without sign, or with a plus sign. -/
def readBits (value : String) : Except UsageError Nat :=
  let digits := match value.toList with
    | '+' :: digits => digits
    | digits => digits
  match Text.Decimal.read? digits with
  | some n => if n < UInt32.size then .ok n else .error (.malformedValue value)
  | none => .error (.malformedValue value)

/-- One of several values with a name each, in any case. -/
def readName {α : Type} (names : List (String × α)) (value : String) : Except UsageError α :=
  match names.find? fun (name, _) => name.toList == value.toList.map Char.toLower with
  | some (_, a) => .ok a
  | none => .error (.invalidValue value)

def readRounding : String → Except UsageError Rounding :=
  readName [("up", .up), ("down", .down), ("near", .near)]

/-- Reads a weight format. One of them cannot be asked for. -/
def readFormat : String → Except UsageError WeightFormat :=
  readName [("detect", .detect), ("cachet", .cachet), ("minic2d", .minic2d), ("mc20", .mc20)]

/-- The value of an option, read, or `missing` when there is none. Values are looked at before it is noticed
that there are several. -/
def value {α : Type} (g : Given) (key : Key) (read : String → Except UsageError α)
    (missing : Option α) : Except UsageError (Option α) := do
  let values ← (g.valuesOf key).mapM read
  if g.keys.contains key && values.isEmpty && missing.isNone then throw .missingValue
  if 1 < g.keys.count key then throw .repeatedUse
  return values.head?.or missing

def switch (g : Given) (s : Switch) : Except UsageError Bool := do
  if 1 < g.switches.count s then throw .repeatedUse
  return g.switches.contains s

def read (arguments : List String) : Except UsageError Options := do
  let g ← arguments.foldlM Given.feed {}
  if let some key := g.waiting then
    if key ≠ .rounding ∧ key ≠ .format ∧ (g.valuesOf key).isEmpty then throw .missingValue
  return {
    input := g.input
    output := ← value g .output pure none
    dyadic := ← value g .dyadic readBits none
    rounding := (← value g .rounding readRounding (some .down)).getD .down
    format := (← value g .format readFormat (some .detect)).getD .detect
    report := ← value g .report pure none
    verify := ← switch g .verify
    debug := ← switch g .debug }

end Options

end WeightedCnf

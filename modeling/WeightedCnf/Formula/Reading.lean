import WeightedCnf.Event
import WeightedCnf.Formula.Basic
import WeightedCnf.Stream.Buffered
import WeightedCnf.Stream.Token
/-!
Reading weighted formulas. A file is a sequence of lines, told apart by their first character: headers,
weights, comments, of which two kinds have a meaning, and clauses, which are kept as they are. The weight
format follows from the lines that are met. Reading always gives a formula; one that could not be read has
no variables and no clauses.
-/

namespace WeightedCnf

/-- A formula under way. -/
structure Reader (σ : Type) where
  stream : σ
  /-- The weight format, as far as it is known. -/
  format : WeightFormat
  formula : Formula := {}
  log : Log := #[]

/-- A step of reading. What was read before an error stays. -/
abbrev Reading (σ : Type) := EStateM (Stop FormulaError) (Reader σ)

namespace Reading

open ByteStream (skipBlanks skipLine restOfLine token integer integer?)

variable {σ α : Type}

def onStream (x : EStateM StreamError σ α) : Reading σ α := fun r =>
  match x r.stream with
  | .ok a s => .ok a { r with stream := s }
  | .error e s => .error (.error (.stream e)) { r with stream := s }

def onFormula (f : Formula → Formula) : Reading σ Unit :=
  modify fun r => { r with formula := f r.formula }

def report (event : Event) : Reading σ Unit :=
  modify fun r => { r with log := r.log.push event }

def refuse (e : FormulaError) : Reading σ α :=
  throw (.error e)

def assume : Except Fault α → Reading σ α
  | .ok a => pure a
  | .error e => throw (.fault e)

def within (context : FormulaError → FormulaError) (x : Reading σ α) : Reading σ α :=
  EStateM.adaptExcept (Stop.map context) x

/-- Settles on a format, which is also noted in the formula. -/
def settle (format : WeightFormat) : Reading σ Unit := do
  report (.formatDetected format)
  onFormula (·.addComment ("detected weight format: " ++ format.name).toList)
  modify fun r => { r with format }

/-- Gives a literal the weight that a token stands for, or the invalid weight when it stands for none. -/
def recordWeight (l : Literal) (token : List Char) : Reading σ Unit := do
  match Weight.read token with
  | .ok w => onFormula (·.setWeight l w)
  | .error e =>
    report (.weightNotRead e)
    onFormula (·.setWeight l .invalid)

variable [ByteStream σ]

def require (c : Bool) (e : FormulaError) : Reading σ Unit :=
  if c then pure () else refuse e

def header : Reading σ Unit := do
  require (← onStream (ByteStream.passPrefix (Text.Utf8.encode "p cnf ".toList))) .malformedHeader
  let variableCount ← onStream integer
  let clauseCount ← onStream integer
  require (0 ≤ variableCount) (.negativeVariableCount variableCount)
  require (0 ≤ clauseCount) (.negativeClauseCount clauseCount)
  report (.headerRead variableCount.toNat clauseCount.toNat)
  onFormula (·.setCounts variableCount.toNat clauseCount.toNat)

def literal : Reading σ Literal := do
  let n ← onStream integer
  let f := (← get).formula
  require (f.hasLiteral n) (.literalOutOfRange n f.variableCount)
  assume (Literal.ofInt n)

/-- There is a weight line: this says something about the format. -/
def meetWeightLine : Reading σ Unit := do
  match (← get).format with
  | .minic2d => refuse .unexpectedWeightLine
  | .detect => modify fun r => { r with format := .cachetOrMc20 }
  | _ => pure ()

/-- There is a weight line for this literal: a negative one is not in every format. -/
def meetLiteral (l : Literal) : Reading σ Unit := do
  if l.positive then return
  match (← get).format with
  | .cachet => refuse (.negativeLiteral l)
  | .cachetOrMc20 => settle .mc20
  | _ => pure ()

/-- There is a weight line that says that there is no weight. -/
def meetNoWeight : Reading σ Unit := do
  match (← get).format with
  | .cachetOrMc20 => settle .cachet
  | .cachet => pure ()
  | format => refuse (.missingWeight format)

/-- Reads the weight of one literal. The token `-1` stands for no weight: both literals of the variable count
one. -/
def weightLine : Reading σ Unit := do
  require (← onStream (ByteStream.passPrefix (Text.Utf8.encode "w ".toList))) .malformedWeightLine
  meetWeightLine
  let l ← literal
  meetLiteral l
  let weight ← onStream token
  if weight = "-1".toList then
    meetNoWeight
    onFormula fun f => (f.setWeight l .one).setWeight (-l) .one
  else recordWeight l weight

/-- The next word of a list that starts on a line whose remaining words are given and goes on as far as it has
to; with the word come those that remain after it. -/
def nextWord : List (List Char) → Reading σ (List Char × List (List Char))
  | word :: words => return (word, words)
  | [] => return (← onStream token, [])

/-- Reads variables of the support up to a zero, at most `fuel` words. -/
def supportList : (fuel : Nat) → (words : List (List Char)) → Reading σ Unit
  | 0, _ => return
  | fuel + 1, words => do
    let (word, words) ← nextWord words
    match integer? word with
    | none => refuse (.supportNotInteger word)
    | some n =>
      if n = 0 then return
      let f := (← get).formula
      require (0 < n && f.hasLiteral n) (.supportOutOfRange n f.variableCount)
      let v ← assume (Variable.ofNumber n)
      onFormula (·.addSupport v)
      supportList fuel words

def weightList : (count number : Nat) → (words : List (List Char)) → Reading σ Unit
  | 0, _, _ => return
  | count + 1, number, words => do
    let v ← assume (Variable.ofNumber number)
    let (weight, words) ← within (.inWeightOf v.positive) (nextWord words)
    recordWeight v.positive weight
    let (weight, words) ← within (.inWeightOf v.negative) (nextWord words)
    recordWeight v.negative weight
    weightList count (number + 1) words

/-- Reads a comment. After a blank, `ind` starts the support and `weights` a list of weights, if the format
can still be the one that has it; any other comment is kept. -/
def comment : Reading σ Unit := do
  onStream (modify ByteStream.pass)
  let rest ← onStream restOfLine
  let separated := rest.head?.any Text.isAsciiBlank
  let words := Text.words rest
  let r ← get
  if separated && words.head? == some "ind".toList then
    supportList (words.length + ByteStream.unread r.stream + 1) words.tail
  else if separated && words.head? == some "weights".toList &&
      (r.format == .detect || r.format == .minic2d) then
    if r.format = .detect then settle .minic2d
    weightList r.formula.variableCount 1 words.tail
  else onFormula (·.addLine (.raw ('c' :: rest)))

def otherLine : Reading σ Unit := do
  let text ← onStream restOfLine
  onFormula (·.addLine (.raw text))

def item (first : UInt8) : Reading σ Unit :=
  if first = 'p'.toUInt8 then header
  else if first = 'w'.toUInt8 then weightLine
  else if first = 'c'.toUInt8 then comment
  else otherLine

def complete : Reading σ Unit := do
  let f ← assume (← get).formula.completeAllWeights
  onFormula fun _ => f

/-- At the end of a file with one weight line for each variable, gives all literals a weight. -/
def finish : Reading σ Unit := do
  match (← get).format with
  | .cachetOrMc20 =>
    settle .cachet
    complete
  | .cachet => complete
  | _ => pure ()

def file : (fuel : Nat) → Reading σ Unit
  | 0 => finish
  | fuel + 1 => do
    onStream skipBlanks
    let line := (ByteStream.position (← get).stream).line
    match ← onStream ByteStream.peek with
    | none => finish
    | some first =>
      within (.onLine line) (item first)
      onStream skipLine
      file fuel

end Reading

namespace Formula

def readFrom {σ : Type} [ByteStream σ] (stream : σ) (format : WeightFormat) : Logged Fault Formula :=
  fun log =>
    match Reading.file (ByteStream.unread stream + 1) { stream, format, log } with
    | .ok () r => .ok { r.formula with format := r.format } r.log
    | .error (.error e) r =>
      .ok { r.formula.setCounts 0 0 with format := r.format } (r.log.push (.formulaNotRead e))
    | .error (.fault e) r => .error e r.log

/-- Reads a formula, with weights in this format, or in one to be found out. -/
def parse (source : Source) (format : WeightFormat) : Logged Fault Formula :=
  readFrom (BufferedStream.ofSourceUsual source) format

end Formula

end WeightedCnf

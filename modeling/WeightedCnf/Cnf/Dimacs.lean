import WeightedCnf.Cnf.Basic
import WeightedCnf.Text.Blank
import WeightedCnf.Text.Utf8
/-!
Reading clauses in the DIMACS format, byte by byte. Comments and the header take a line each and start it;
everything else is a sequence of integers, in which a zero ends a clause. The header has to tell the truth.
-/

namespace WeightedCnf

/-- The numbers that a header announces. -/
structure Dimacs.Header where
  variableCount : Nat
  clauseCount : Nat
deriving DecidableEq, Repr

/-- Why a text is not in the format. -/
inductive DimacsError where
  /-- A number above the largest variable; its last digit is apart. -/
  | literalTooLarge (line leading digit : Nat)
  | unexpectedCharacter (line : Nat) (byte : UInt8)
  | invalidHeader (line : Nat) (text : List Char)
  | unterminatedClause (line : Nat)
  | wrongVariableCount (found announced : Nat)
  | wrongClauseCount (found announced : Nat)
deriving DecidableEq, Repr

/-- The wording of the error. A byte is shown as the character with its number. -/
def DimacsError.message : DimacsError → String
  | literalTooLarge line leading digit =>
    s!"line {line}: Literal index is too large: {leading}{digit}..."
  | unexpectedCharacter line byte =>
    s!"line {line}: Unexpected character in DIMACS CNF input: '" ++
      String.singleton (Char.ofNat byte.toNat) ++ "'"
  | invalidHeader line text => s!"line {line}: Invalid header syntax: " ++ String.ofList text
  | unterminatedClause line => s!"line {line}: Unterminated clause"
  | wrongVariableCount found announced =>
    s!"Formula has {found} variables while the header specifies {announced} variables"
  | wrongClauseCount found announced =>
    s!"Formula has {found} clauses while the header specifies {announced} clauses"

namespace Dimacs

/-- An integer under way. -/
inductive Number where
  /-- Nothing of it was read. -/
  | none
  /-- The minus sign was read. -/
  | sign
  /-- Digits were read, after a minus sign if `negated`. -/
  | digits (negated : Bool) (magnitude : Fin (Variable.limit + 1))
deriving DecidableEq, Repr

/-- What the next byte belongs to. -/
inductive Mode where
  | comment
  /-- The bytes of the header so far, the last one first. -/
  | header (text : List UInt8)
  /-- The clauses. Only at the start of a line a comment or the header can begin. -/
  | clauses (startOfLine : Bool) (number : Number)
deriving DecidableEq, Repr

/-- A text under way. -/
structure Scanner where
  /-- The line of the next byte, from 1. -/
  line : Nat := 1
  mode : Mode := .clauses true .none
  header : Option Header := none
  /-- The literals of the clause under way, the last one first. -/
  literals : Clause := []
  /-- The clauses, the first one first. -/
  clauses : Array Clause := #[]
deriving DecidableEq, Repr

def Header.read (line : Nat) (text : List Char) : Except DimacsError Header :=
  match text, Text.words (text.drop 2) with
  | 'p' :: ' ' :: _, [keyword, variableCount, clauseCount] =>
    match Text.Decimal.read? variableCount, Text.Decimal.read? clauseCount with
    | some v, some c =>
      if keyword ≠ "cnf".toList then .error (.invalidHeader line text)
      else if Variable.limit < v then .error (.literalTooLarge line (v / 10) (v % 10))
      else .ok ⟨v, c⟩
    | _, _ => .error (.invalidHeader line text)
  | _, _ => .error (.invalidHeader line text)

namespace Scanner

/-- Ends the integer under way: a zero ends the clause, any other number is a literal of it. -/
def endNumber (s : Scanner) : Number → Scanner
  | .digits negated ⟨index + 1, h⟩ =>
    { s with literals := ⟨⟨index, Nat.succ_lt_succ_iff.1 h⟩, !negated⟩ :: s.literals }
  | .digits _ ⟨0, _⟩ =>
    { s with literals := [], clauses := s.clauses.push s.literals.reverse }
  | _ => s

def digit (s : Scanner) (negated : Bool) (magnitude digit : Nat) : Except DimacsError Scanner :=
  if h : 10 * magnitude + digit < Variable.limit + 1 then
    .ok { s with mode := .clauses false (.digits negated ⟨10 * magnitude + digit, h⟩) }
  else .error (.literalTooLarge s.line magnitude digit)

def clauseByte (s : Scanner) (startOfLine : Bool) (number : Number) (b : UInt8) :
    Except DimacsError Scanner :=
  if '0'.toUInt8 ≤ b ∧ b ≤ '9'.toUInt8 then
    let value := b.toNat - '0'.toNat
    match number with
    | .none => s.digit false 0 value
    | .sign => s.digit true 0 value
    | .digits negated magnitude => s.digit negated magnitude value
  else if b = '-'.toUInt8 ∧ number = .none then .ok { s with mode := .clauses false .sign }
  else if (b = ' '.toUInt8 ∨ b = '\n'.toUInt8 ∨ b = '\r'.toUInt8) ∧ number ≠ .sign then
    .ok { s.endNumber number with mode := .clauses (b != ' '.toUInt8) .none }
  else if b = 'c'.toUInt8 ∧ startOfLine then .ok { s with mode := .comment }
  else if b = 'p'.toUInt8 ∧ startOfLine ∧ s.header.isNone then
    .ok { s with mode := .header [b] }
  else .error (.unexpectedCharacter s.line b)

/-- Takes the next byte. A newline belongs to the line that it starts. -/
def feed (s : Scanner) (b : UInt8) : Except DimacsError Scanner :=
  let s := if b = Text.newline then { s with line := s.line + 1 } else s
  let endsLine := b = '\n'.toUInt8 ∨ b = '\r'.toUInt8
  match s.mode with
  | .comment =>
    if endsLine then .ok { s with mode := .clauses true .none } else .ok s
  | .header text =>
    if endsLine then do
      let header ← Header.read s.line (Text.Utf8.decode text.reverse)
      return { s with mode := .clauses true .none, header := some header }
    else .ok { s with mode := .header (b :: text) }
  | .clauses startOfLine number => s.clauseByte startOfLine number b

def finish (s : Scanner) : Except DimacsError Cnf :=
  let s := match s.mode with
    | .clauses _ number => s.endNumber number
    | _ => s
  if !s.literals.isEmpty then .error (.unterminatedClause s.line)
  else
    let clauses := s.clauses.toList
    match s.header with
    | none => .ok (.ofClauses 0 clauses)
    | some header =>
      let cnf := Cnf.ofClauses header.variableCount clauses
      if cnf.variableCount ≠ header.variableCount then
        .error (.wrongVariableCount cnf.variableCount header.variableCount)
      else if clauses.length ≠ header.clauseCount then
        .error (.wrongClauseCount clauses.length header.clauseCount)
      else .ok cnf

end Scanner

def read (bytes : List UInt8) : Except DimacsError Cnf := do
  (← bytes.foldlM Scanner.feed {}).finish

end Dimacs

end WeightedCnf

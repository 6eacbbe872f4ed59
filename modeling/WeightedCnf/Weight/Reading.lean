import WeightedCnf.Weight.Basic
/-!
Weights as they are written in a formula: a decimal such as `0.25` or a fraction such as `1/4`, without
signs. Digits are taken one by one, and the first thing that goes wrong is reported: a character that has
no place there, or a number that is out of range.
-/

namespace WeightedCnf

/-- Why a token is not a weight. -/
inductive WeightError where
  | overflow (token : List Char)
  | unknownFraction (token : List Char)
  | unknownDecimal (token : List Char)
deriving DecidableEq, Repr

def WeightError.message : WeightError → String
  | overflow token => "weight " ++ String.ofList token ++ " overflows"
  | unknownFraction token => "unknown fraction: " ++ String.ofList token
  | unknownDecimal token => "unknown decimal: " ++ String.ofList token

namespace Weight

open Text.Decimal

def ofNats (num denom : Nat) : Weight :=
  ⟨.ofNat num, .ofNat denom⟩

def bounded (token : List Char) (n : Nat) : Except WeightError Nat :=
  if (n : Int) ≤ largest then .ok n else .error (.overflow token)

/-- Reads what remains of a fraction, after `num` and, if `slash`, after `denom`. -/
def readFraction (token : List Char) :
    List Char → (num denom : Nat) → (slash : Bool) → Except WeightError Weight
  | [], num, denom, _ => .ok (ofNats num denom)
  | c :: cs, num, denom, slash =>
    if c = '/' ∧ !slash then readFraction token cs num denom true
    else if !isDigit c then .error (.unknownFraction token)
    else if slash then do
      readFraction token cs num (← bounded token (10 * denom + digitValue c)) slash
    else do
      readFraction token cs (← bounded token (10 * num + digitValue c)) denom slash

/-- Reads what remains of a decimal, after the digits of `num`; `denom` is the power of ten for those
after the point. -/
def readDecimal (token : List Char) :
    List Char → (num denom : Nat) → (point : Bool) → Except WeightError Weight
  | [], num, denom, _ => .ok (ofNats num denom)
  | c :: cs, num, denom, point =>
    if c = '.' ∧ !point then readDecimal token cs num denom true
    else if !isDigit c then .error (.unknownDecimal token)
    else do
      let num ← bounded token (10 * num + digitValue c)
      let denom ← if point then bounded token (10 * denom) else .ok denom
      readDecimal token cs num denom point

/-- Reads a weight. Missing digits count as zero, and a fraction is not simplified. -/
def read (token : List Char) : Except WeightError Weight :=
  if '/' ∈ token then readFraction token token 0 0 false
  else readDecimal token token 0 1 false

end Weight

end WeightedCnf

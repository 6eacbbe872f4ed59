import WeightedCnf.Binary64.Nearest
import WeightedCnf.Fault
import WeightedCnf.Text.Decimal
/-!
Weights of literals: fractions of two 64-bit integers that are kept as they were given. `2/4` and `1/2` are
different weights of one value, and a zero denominator marks a weight that could not be read.
-/

namespace WeightedCnf

/-- A fraction, never simplified unless asked. -/
structure Weight where
  num : Int64
  denom : Int64
deriving DecidableEq, Repr

namespace Weight

/-- What stands for a weight that could not be read. -/
def invalid : Weight := ⟨1, 0⟩

def one : Weight := ⟨1, 1⟩

def half : Weight := ⟨1, 2⟩

abbrev largest : Int := 0x7fffffffffffffff

def component? (n : Int) : Option Int64 :=
  if -0x8000000000000000 ≤ n ∧ n ≤ largest then some (Int64.ofInt n) else none

def component (n : Int) : Except Fault Int64 :=
  match component? n with
  | some c => .ok c
  | none => .error .overflow

def isValid (w : Weight) : Bool :=
  w.denom != 0

def toRat? (w : Weight) : Option Rat :=
  if w.isValid then some (Rat.divInt w.num.toInt w.denom.toInt) else none

/-- The value of a weight as a double, infinite or no number when the denominator is zero. -/
def value (w : Weight) : Float :=
  Binary64.ofInt w.num.toInt / Binary64.ofInt w.denom.toInt

def text (w : Weight) : List Char :=
  Text.Decimal.ofInt w.num.toInt ++ '/' :: Text.Decimal.ofInt w.denom.toInt

/-- Divides both components by their greatest common divisor. The least component has no absolute value, so
it cannot be simplified. -/
def simplify (w : Weight) : Except Fault Weight :=
  if w.num = Int64.minValue ∨ w.denom = Int64.minValue then .error .overflow
  else
    let divisor : Int := Int.gcd w.num.toInt w.denom.toInt
    if divisor = 0 then .ok w
    else .ok ⟨.ofInt (w.num.toInt / divisor), .ofInt (w.denom.toInt / divisor)⟩

/-- One minus the weight, over the same denominator. -/
def complement (w : Weight) : Except Fault Weight := do
  return ⟨← component (w.denom.toInt - w.num.toInt), w.denom⟩

end Weight

def ratText (q : Rat) : List Char :=
  if q.den = 1 then Text.Decimal.ofInt q.num
  else Text.Decimal.ofInt q.num ++ '/' :: Text.Decimal.digits q.den

end WeightedCnf

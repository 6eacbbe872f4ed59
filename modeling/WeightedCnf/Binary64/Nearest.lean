/-!
The double nearest to an exact number. Whole numbers are rounded to 53 significant bits, a half going to
the even neighbour, and become infinite when they are too large; fractions are rounded in numerator and
denominator and then divided, so that they are rounded three times.
-/

namespace WeightedCnf.Binary64

/-- `n / 2 ^ places`, rounded to the nearest whole number, a half to the even one. -/
def shiftToNearest (n places : Nat) : Nat :=
  let quotient := n >>> places
  let twice := 2 * (n % 1 <<< places)
  if 1 <<< places < twice ∨ (twice = 1 <<< places ∧ quotient % 2 = 1) then quotient + 1 else quotient

def infinityBits : Nat := 0x7ff <<< 52

/-- The bit pattern of the double nearest to a natural number. The exponent field counts from 1023, and a
significand that is rounded up to 54 bits carries into it. -/
def nearestBits (n : Nat) : Nat :=
  if n = 0 then 0 else
    let exponent := n.log2
    let significand :=
      if exponent ≤ 52 then n <<< (52 - exponent) else shiftToNearest n (exponent - 52)
    min ((exponent + 1022) <<< 52 + significand) infinityBits

def ofInt (n : Int) : Float :=
  .ofBits (.ofNat (nearestBits n.natAbs + if n < 0 then 1 <<< 63 else 0))

/-- The quotient of the doubles nearest to the numerator and to the denominator. -/
def ofRat (q : Rat) : Float :=
  ofInt q.num / ofInt q.den

end WeightedCnf.Binary64

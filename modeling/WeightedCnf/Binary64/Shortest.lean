import WeightedCnf.Text.Decimal
/-!
The shortest decimal that reads back as a given double. Every decimal strictly between the halves of the
two gaps around a double reads back as that double, the ends included when the significand is even. The
search goes from coarse to fine grids of decimals and stops at the first grid with a point in that
interval; of two points the nearer is taken, and the upper one when they are equally near.
-/

namespace WeightedCnf.Binary64

/-- The significant digits of a decimal and the power of ten that they are multiplied by. -/
structure Decimal where
  digits : Nat
  exponent : Int
deriving DecidableEq, Repr

/-- A positive double and the interval of numbers that are rounded to it, all over one denominator. -/
structure Interval where
  low : Nat
  value : Nat
  high : Nat
  denominator : Nat
  /-- Whether the ends belong to the interval. -/
  closed : Bool

/-- The interval of the double of this exponent field and fraction field. Below a power of two the gap is
half as wide as above. -/
def Interval.ofFields (exponent fraction : Nat) : Interval :=
  let significand := if exponent = 0 then fraction else fraction + 1 <<< 52
  let below := if fraction = 0 ∧ 1 < exponent then 1 else 2
  let scale := 1 <<< (max exponent 1 - 1077)
  { low := (4 * significand - below) * scale
    value := 4 * significand * scale
    high := (4 * significand + 2) * scale
    denominator := 1 <<< (1077 - max exponent 1)
    closed := significand % 2 == 0 }

def Interval.scale (i : Interval) (power : Int) : Interval :=
  let up := Nat.pow 10 power.toNat
  { i with
    low := i.low * up
    value := i.value * up
    high := i.high * up
    denominator := i.denominator * Nat.pow 10 (-power).toNat }

def Interval.contains (i : Interval) (n : Nat) : Bool :=
  let n := n * i.denominator
  if i.closed then i.low ≤ n && n ≤ i.high else i.low < n && n < i.high

def Interval.nearest? (i : Interval) : Option Nat :=
  let floor := i.value / i.denominator
  let remainder := i.value % i.denominator
  match i.contains floor, i.contains (floor + 1) with
  | true, false => some floor
  | false, true => some (floor + 1)
  | true, true => some (if 2 * remainder < i.denominator then floor else floor + 1)
  | false, false => none

def Decimal.stripZeros : (fuel : Nat) → Decimal → Decimal
  | 0, d => d
  | fuel + 1, d =>
    if d.digits % 10 = 0 ∧ d.digits ≠ 0 then stripZeros fuel ⟨d.digits / 10, d.exponent + 1⟩ else d

/-- Looks for a point of the interval on the grid of multiples of ten to the `exponent`, and on the
following finer grids. -/
def Interval.search (i : Interval) : (grids : Nat) → (exponent : Int) → Decimal
  | 0, exponent => ⟨0, exponent⟩
  | grids + 1, exponent =>
    match (i.scale (-exponent)).nearest? with
    | some n => ⟨n, exponent⟩
    | none => i.search grids (exponent - 1)

/-- The power of ten of the leading digit of `value / denominator`, or one more. -/
def Interval.leading (i : Interval) : Int :=
  (Nat.toDigits 10 i.value).length - (Nat.toDigits 10 i.denominator).length

/-- The shortest decimal that reads back as the positive double with these fields. Nineteen grids are
enough: doubles have at most seventeen significant digits. -/
def shortest (exponent fraction : Nat) : Decimal :=
  let i := Interval.ofFields exponent fraction
  (i.search 19 i.leading).stripZeros 20

end WeightedCnf.Binary64

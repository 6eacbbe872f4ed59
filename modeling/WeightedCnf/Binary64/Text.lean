import WeightedCnf.Binary64.Shortest
/-!
Doubles as text, with the fewest digits that read back. Plain text never uses an exponent; a report does
outside a range of magnitudes, and marks every number as one with a fraction.
-/

namespace WeightedCnf.Binary64

def Decimal.positional (d : Decimal) : List Char :=
  let digits := Text.Decimal.digits d.digits
  let places := (-d.exponent).toNat
  if places = 0 then digits ++ List.replicate d.exponent.toNat '0'
  else if places < digits.length then
    digits.take (digits.length - places) ++ '.' :: digits.drop (digits.length - places)
  else '0' :: '.' :: List.replicate (places - digits.length) '0' ++ digits

def Decimal.scientific (d : Decimal) : List Char :=
  let digits := Text.Decimal.digits d.digits
  let exponent := d.exponent + (digits.length - 1)
  let mantissa := match digits with
    | [] => []
    | [digit] => [digit]
    | digit :: others => digit :: '.' :: others
  mantissa ++ 'e' :: Text.Decimal.ofInt exponent

/-- How doubles are written. -/
structure Style where
  nan : List Char
  infinity : List Char
  zero : List Char
  finite : Decimal → List Char

/-- Plain text: `1`, `0.25`, `inf`. -/
def plain : Style where
  nan := "NaN".toList
  infinity := "inf".toList
  zero := "0".toList
  finite := Decimal.positional

/-- Reports: `1.0`, `0.25`, and an exponent for magnitudes from ten to the sixteen or below ten to the minus
five. What is not finite is absent. -/
def report : Style where
  nan := "null".toList
  infinity := "null".toList
  zero := "0.0".toList
  finite d :=
    let magnitude := d.exponent + (Text.Decimal.digits d.digits).length
    if 16 < magnitude ∨ magnitude ≤ -5 then d.scientific
    else if 0 ≤ d.exponent then d.positional ++ ".0".toList
    else d.positional

def text (style : Style) (x : Float) : List Char :=
  let bits := x.toBits.toNat
  let exponent := bits >>> 52 % 2048
  let fraction := bits % 1 <<< 52
  let sign := if bits < 1 <<< 63 then [] else ['-']
  if exponent = 2047 then
    if fraction = 0 ∧ style.infinity ≠ style.nan then sign ++ style.infinity else style.nan
  else if exponent = 0 ∧ fraction = 0 then sign ++ style.zero
  else sign ++ style.finite (shortest exponent fraction)

end WeightedCnf.Binary64

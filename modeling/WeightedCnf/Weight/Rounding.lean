import WeightedCnf.Weight.Basic
/-!
Rounding a weight to a given denominator. Rounding down never reaches zero and rounding up never reaches
one, so that a weight strictly between them stays there.
-/

namespace WeightedCnf

/-- How to round a weight. -/
inductive Rounding where
  /-- To the next fraction above, but never to one. -/
  | up
  /-- To the next fraction below, but never to zero. -/
  | down
  /-- To the one of these two whose double is closer, and up when neither is. -/
  | near
deriving DecidableEq, Repr

namespace Weight

/-- The largest numerator over `denom` that is not above `w`, and one instead of zero. -/
def numeratorBelow (w : Weight) (denom : Int) : Int :=
  let n := w.num.toInt * denom / w.denom.toInt
  if n = 0 then 1 else n

/-- The least numerator over `denom` that is not below `w`, and one less instead of `denom`. -/
def numeratorAbove (w : Weight) (denom : Int) : Int :=
  let n := -((-(w.num.toInt * denom)) / w.denom.toInt)
  if n = denom then n - 1 else n

/-- The fraction with these components, invalid when the numerator is out of range. -/
def ofNumerator (num : Int) (denom : Int64) : Weight :=
  match component? num with
  | some num => ⟨num, denom⟩
  | none => invalid

def roundDown (w : Weight) (denom : Int64) : Weight :=
  if w.denom.toInt ≤ 0 then invalid else ofNumerator (w.numeratorBelow denom.toInt) denom

def roundUp (w : Weight) (denom : Int64) : Weight :=
  if w.denom.toInt ≤ 0 then invalid else ofNumerator (w.numeratorAbove denom.toInt) denom

/-- Rounds to the nearer of the two, as far as doubles can tell. -/
def roundNear (w : Weight) (denom : Int64) : Weight :=
  if w.denom.toInt ≤ 0 then invalid
  else
    let upper := w.roundUp denom
    let lower := w.roundDown denom
    if (lower.value - w.value).abs < (upper.value - w.value).abs then lower else upper

/-- Rounds to a fraction with the denominator `denom`. A weight whose denominator is not positive becomes
invalid. -/
def round (w : Weight) (denom : Int64) : Rounding → Weight
  | .up => w.roundUp denom
  | .down => w.roundDown denom
  | .near => w.roundNear denom

end Weight

end WeightedCnf

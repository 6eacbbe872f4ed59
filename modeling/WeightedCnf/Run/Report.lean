import WeightedCnf.Binary64.Text
import WeightedCnf.Reduction.Dyadic
/-!
What a run has to tell about its result, and how that is written to a file.
-/

namespace WeightedCnf

/-- The result of a run, apart from the reduced formula. -/
structure Report where
  /-- The weighted count is the count of the reduced formula divided by this. -/
  denominator : Nat
  /-- The weight format of the input. -/
  format : WeightFormat
  /-- The number of variables of the reduced formula. -/
  «variables» : Nat
  /-- The number of clauses of the reduced formula. -/
  clauses : Nat
  /-- The weights that a dyadic reduction rounded. -/
  adjustments : List Adjustment
  /-- The bounds of a dyadic reduction. -/
  bounds : Option (Float × Float)

namespace Report

/-- A value between quotes, which has no character that would have to be escaped. -/
def quoted (text : List Char) : List Char :=
  '"' :: text ++ ['"']

/-- Values with a name each, or without names, one a line between two brackets, indented by `depth`. -/
def block (left right : Char) (depth : Nat) (items : List (List Char)) : List Char :=
  if items.isEmpty then [left, right]
  else
    let indent (n : Nat) := '\n' :: List.replicate (2 * n) ' '
    left :: [','].intercalate (items.map (indent (depth + 1) ++ ·)) ++ indent depth ++ [right]

def named (name : String) (value : List Char) : List Char :=
  quoted name.toList ++ ": ".toList ++ value

def object (depth : Nat) (items : List (List Char)) : List Char :=
  block '\x7b' '\x7d' depth items

def list (depth : Nat) (items : List (List Char)) : List Char :=
  block '[' ']' depth items

def adjustment (a : Adjustment) : List Char :=
  object 2 [named "variable" (Text.Decimal.digits a.var.number),
    named "original" (quoted a.original.text), named "approximation" (quoted a.rounded.text)]

def text (r : Report) (milliseconds : Nat) : List Char :=
  object 0
    [named "denominator" (quoted (Text.Decimal.digits r.denominator)),
      named "weight_format" (quoted r.format.name.toList),
      named "variables" (Text.Decimal.digits r.variables),
      named "clauses" (Text.Decimal.digits r.clauses),
      named "adjustments" (list 1 (r.adjustments.map adjustment)),
      named "bounds" (match r.bounds with
        | some (lower, upper) =>
          list 1 [Binary64.text Binary64.report lower, Binary64.text Binary64.report upper]
        | none => "null".toList),
      named "time_ms" (Text.Decimal.digits milliseconds)]

end Report

end WeightedCnf

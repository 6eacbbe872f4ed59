/-!
The conventions for weights in a file. A file does not say which one it follows: a reader starts with `detect`
and moves on as it meets lines that only some of them allow.
-/

namespace WeightedCnf

/-- How weights are written. -/
inductive WeightFormat where
  /-- Nothing has been seen yet. -/
  | detect
  /-- One line for each variable; the negative literal gets the complement. -/
  | cachet
  /-- Weight lines were seen, but none that tells these two formats apart. -/
  | cachetOrMc20
  /-- One list of the weights of all literals. -/
  | minic2d
  /-- One line for each literal. -/
  | mc20
deriving DecidableEq, Repr

def WeightFormat.name : WeightFormat → String
  | detect => "detect"
  | cachet => "cachet"
  | cachetOrMc20 => "cachet_or_mc20"
  | minic2d => "minic2d"
  | mc20 => "mc20"

end WeightedCnf

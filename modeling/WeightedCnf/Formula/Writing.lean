import WeightedCnf.Formula.Basic
import WeightedCnf.Text.Utf8
/-!
Formulas as files: a header, the support if there is one, and the body. Weights are not written, so a
formula is written as an unweighted one.
-/

namespace WeightedCnf

def unwords (words : List (List Char)) : List Char :=
  [' '].intercalate words

/-- Lines with a newline behind each. -/
def unlines (lines : List (List Char)) : List Char :=
  lines.flatMap (· ++ ['\n'])

def zeroTerminated (words : List (List Char)) : List Char :=
  unwords words ++ " 0".toList

def Line.text : Line → List Char
  | raw text => text
  | clause literals => zeroTerminated (literals.map Literal.text)
  | comment text => "c ".toList ++ text

namespace Formula

def headerLine (f : Formula) : List Char :=
  "p cnf ".toList ++ Text.Decimal.digits f.variableCount ++ ' ' :: Text.Decimal.digits f.clauseCount

def supportLine? (f : Formula) : List (List Char) :=
  if f.support.isEmpty then []
  else ["c ind ".toList ++ zeroTerminated (f.support.toList.map (Text.Decimal.digits ·.number))]

def lines (f : Formula) : List (List Char) :=
  f.headerLine :: (f.supportLine? ++ f.body.toList.map Line.text)

def text (f : Formula) : List Char :=
  unlines f.lines

def bytes (f : Formula) : List UInt8 :=
  Text.Utf8.encode f.text

end Formula

end WeightedCnf

import WeightedCnf.Text.Decimal
import WeightedCnf.Text.Unprintable
/-!
Text between double quotes, as it is shown in messages. Quotes and backslashes are preceded by a backslash,
and a character that leaves no mark is shown by its code point.
-/

namespace WeightedCnf.Text.Quoted

def isPrintable (c : Char) : Bool :=
  let n := c.toNat
  if n < 0x7f then 0x20 ≤ n
  else n != 0x7f && !Unprintable.ranges.any fun (low, high) => low ≤ n && n ≤ high

def escape (c : Char) : List Char :=
  match c with
  | '\x00' => ['\\', '0']
  | '\t' => ['\\', 't']
  | '\r' => ['\\', 'r']
  | '\n' => ['\\', 'n']
  | '"' => ['\\', '"']
  | '\\' => ['\\', '\\']
  | c =>
    if isPrintable c then [c]
    else ['\\', 'u', '\x7b'] ++ Nat.toDigits 16 c.toNat ++ ['\x7d']

def quote (text : List Char) : List Char :=
  '"' :: text.flatMap escape ++ ['"']

end WeightedCnf.Text.Quoted

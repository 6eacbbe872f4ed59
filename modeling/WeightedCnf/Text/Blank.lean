/-!
What separates words. Streams of bytes and lines of text have different notions: a byte is blank when
it is one of five ASCII characters, a character when Unicode says so.
-/

namespace WeightedCnf.Text

def newline : UInt8 := 10

/-- Space, tab, newline, form feed and carriage return; not the vertical tab. -/
def isBlankByte (b : UInt8) : Bool :=
  b == 32 || b == 9 || b == 10 || b == 12 || b == 13

def isAsciiBlank (c : Char) : Bool :=
  c == ' ' || c == '\t' || c == '\n' || c == '\x0c' || c == '\r'

/-- The Unicode property White_Space. -/
def isBlank (c : Char) : Bool :=
  let n := c.toNat
  (9 ≤ n && n ≤ 13) || n == 0x20 || n == 0x85 || n == 0xa0 || n == 0x1680 ||
    (0x2000 ≤ n && n ≤ 0x200a) || n == 0x2028 || n == 0x2029 || n == 0x202f || n == 0x205f ||
    n == 0x3000

def consWord (word : List Char) (others : List (List Char)) : List (List Char) :=
  if word.isEmpty then others else word :: others

def words (text : List Char) : List (List Char) :=
  let (word, others) := text.foldr
    (fun c (word, others) =>
      if isBlank c then ([], consWord word others) else (c :: word, others))
    ([], [])
  consWord word others

end WeightedCnf.Text

import WeightedCnf.Fault
import WeightedCnf.Text.Blank
import WeightedCnf.Text.Quoted
/-!
What a reader of text asks of a stream of bytes: to look at the next byte, to pass it, and to pass a given
prefix. A stream is read once, from its first byte to its last, and knows how many lines it has passed.
-/

namespace WeightedCnf

/-- A place in a text. -/
structure Position where
  /-- Counted from 1. -/
  line : Nat := 1
  /-- The bytes passed on this line. -/
  column : Nat := 0
deriving DecidableEq, Repr

def Position.after (p : Position) (b : UInt8) : Position :=
  if b = Text.newline then ⟨p.line + 1, 0⟩ else ⟨p.line, p.column + 1⟩

/-- Why a stream does not answer. -/
inductive StreamError where
  /-- The source of the bytes failed. -/
  | readFailed
  /-- The prefix asked for can never be buffered. -/
  | prefixTooLong (length capacity : Nat)
  /-- Nothing but blanks was left from this position. -/
  | missingToken (position : Position)
  /-- The token that starts at this position is not an integer. -/
  | notAnInteger (position : Position) (token : List Char)
deriving DecidableEq, Repr

namespace StreamError

def expectedInteger (token : List Char) : String :=
  "expected an integer, found " ++ String.ofList (Text.Quoted.quote token)

def causes : StreamError → List String
  | readFailed => ["read failed"]
  | prefixTooLong length capacity =>
    [s!"prefix of {length} bytes does not fit in a buffer of {capacity} bytes"]
  | missingToken ⟨line, column⟩ =>
    [s!"expected a token (line {line}, column {column}), found end of input"]
  | notAnInteger ⟨line, column⟩ token =>
    [s!"line {line}, column {column}", expectedInteger token]

end StreamError

/-- A stream of bytes. -/
class ByteStream (σ : Type) where
  /-- The position of the next byte. -/
  position : σ → Position
  /-- How many bytes will come at most. -/
  unread : σ → Nat
  /-- The next byte, which stays where it is, or nothing at the end. -/
  peek : EStateM StreamError σ (Option UInt8)
  /-- Passes the next byte, which has been looked at. -/
  pass : σ → σ
  /-- Passes these bytes if they come next, and nothing otherwise. -/
  passPrefix : List UInt8 → EStateM StreamError σ Bool

end WeightedCnf

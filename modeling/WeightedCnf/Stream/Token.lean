import WeightedCnf.Stream.Basic
import WeightedCnf.Text.Decimal
import WeightedCnf.Text.Utf8
/-!
Tokens and lines of a stream. A token is a longest stretch without blank bytes; a line ends at a newline,
which is not part of it. Bytes that are not UTF-8 are replaced.
-/

namespace WeightedCnf.ByteStream

variable {σ : Type} [ByteStream σ]

/-- Passes bytes while they satisfy `p`, at most `fuel` of them; `passed` came before, the last one first. -/
def passWhileFrom (p : UInt8 → Bool) :
    (fuel : Nat) → (passed : List UInt8) → EStateM StreamError σ (List UInt8)
  | 0, passed => return passed.reverse
  | fuel + 1, passed => do
    match ← peek with
    | none => return passed.reverse
    | some b =>
      if p b then
        modify pass
        passWhileFrom p fuel (b :: passed)
      else return passed.reverse

def passWhile (p : UInt8 → Bool) : EStateM StreamError σ (List UInt8) := do
  passWhileFrom p (unread (← get) + 1) []

/-- Passes blanks, newlines included. -/
def skipBlanks : EStateM StreamError σ Unit :=
  discard <| passWhile Text.isBlankByte

/-- Passes the rest of the line and its newline. -/
def skipLine : EStateM StreamError σ Unit := do
  discard <| passWhile (· != Text.newline)
  modify pass

/-- The rest of the line; the newline stays in the stream. -/
def restOfLine : EStateM StreamError σ (List Char) :=
  return Text.Utf8.decode (← passWhile (· != Text.newline))

def token : EStateM StreamError σ (List Char) := do
  skipBlanks
  let start := position (← get)
  let bytes ← passWhile (!Text.isBlankByte ·)
  if bytes.isEmpty then throw (.missingToken start)
  return Text.Utf8.decode bytes

/-- The integer that a token stands for, if it is in the range of 64-bit words. -/
def integer? (token : List Char) : Option Int :=
  (Text.Decimal.readInt? token).filter fun n => -0x8000000000000000 ≤ n && n < 0x8000000000000000

/-- The next token as an integer. The position in the error is that of the token, as far as its text has as
many bytes as were read. -/
def integer : EStateM StreamError σ Int := do
  let text ← token
  match integer? text with
  | some n => return n
  | none =>
    let ⟨line, column⟩ := position (← get)
    throw (.notAnInteger ⟨line, column - Text.Utf8.size text⟩ text)

end WeightedCnf.ByteStream

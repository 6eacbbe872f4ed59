/-!
UTF-8. Encoding is exact. Decoding takes any bytes: each maximal ill-formed subsequence becomes one
replacement character, so that nothing that can be decoded is lost.
-/

namespace WeightedCnf.Text.Utf8

def encode (text : List Char) : List UInt8 :=
  text.flatMap String.utf8EncodeChar

def size (text : List Char) : Nat :=
  (encode text).length

def replacement : Char := '\ufffd'

/-- The beginning of a character: the value so far, how many bytes are missing, and the range in which
the next one has to be. -/
structure Pending where
  value : Nat
  missing : Nat
  low : UInt8
  high : UInt8

/-- The first byte of a character of several bytes. The range of the second byte excludes overlong
forms, surrogates and values above U+10FFFF. -/
def Pending.ofLead? (b : UInt8) : Option Pending :=
  let n := b.toNat
  if 0xc2 ≤ n ∧ n ≤ 0xdf then some ⟨n - 0xc0, 1, 0x80, 0xbf⟩
  else if n = 0xe0 then some ⟨0, 2, 0xa0, 0xbf⟩
  else if n = 0xed then some ⟨0xd, 2, 0x80, 0x9f⟩
  else if 0xe1 ≤ n ∧ n ≤ 0xef then some ⟨n - 0xe0, 2, 0x80, 0xbf⟩
  else if n = 0xf0 then some ⟨0, 3, 0x90, 0xbf⟩
  else if 0xf1 ≤ n ∧ n ≤ 0xf3 then some ⟨n - 0xf0, 3, 0x80, 0xbf⟩
  else if n = 0xf4 then some ⟨4, 3, 0x80, 0x8f⟩
  else none

/-- What has been decoded, the last character first, and the character under way. -/
structure Decoder where
  decoded : List Char := []
  pending : Option Pending := none

namespace Decoder

def start (decoded : List Char) (b : UInt8) : Decoder :=
  if b < 0x80 then ⟨Char.ofNat b.toNat :: decoded, none⟩
  else match Pending.ofLead? b with
    | some p => ⟨decoded, some p⟩
    | none => ⟨replacement :: decoded, none⟩

/-- Takes the next byte. A byte that cannot continue the character under way starts another one. -/
def feed (d : Decoder) (b : UInt8) : Decoder :=
  match d.pending with
  | none => start d.decoded b
  | some p =>
    if p.low ≤ b ∧ b ≤ p.high then
      let value := p.value * 64 + (b.toNat - 0x80)
      if p.missing ≤ 1 then ⟨Char.ofNat value :: d.decoded, none⟩
      else ⟨d.decoded, some ⟨value, p.missing - 1, 0x80, 0xbf⟩⟩
    else start (replacement :: d.decoded) b

def finish (d : Decoder) : List Char :=
  match d.pending with
  | none => d.decoded.reverse
  | some _ => (replacement :: d.decoded).reverse

end Decoder

def decode (bytes : List UInt8) : List Char :=
  (bytes.foldl Decoder.feed {}).finish

end WeightedCnf.Text.Utf8

import WeightedCnf.Stream.Basic
/-!
The stream of the bytes of a list. It needs no buffer and never fails, and says what a buffered stream has to
answer.
-/

namespace WeightedCnf

/-- The bytes that are left, and where they start. -/
structure PlainStream where
  rest : List UInt8
  position : Position := {}
deriving DecidableEq, Repr

namespace PlainStream

def pass (s : PlainStream) : PlainStream :=
  match s.rest with
  | [] => s
  | b :: bs => ⟨bs, s.position.after b⟩

def peek : EStateM StreamError PlainStream (Option UInt8) := fun s =>
  .ok s.rest.head? s

def passPrefix (bytes : List UInt8) : EStateM StreamError PlainStream Bool := fun s =>
  if bytes.isPrefixOf s.rest then .ok true (bytes.foldl (fun s _ => s.pass) s) else .ok false s

instance : ByteStream PlainStream where
  position := PlainStream.position
  unread s := s.rest.length
  peek := peek
  pass := pass
  passPrefix := passPrefix

end PlainStream

end WeightedCnf

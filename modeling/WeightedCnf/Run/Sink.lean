/-!
Where the output of a run goes. A sink may refuse what it is given, or not let the output end.
-/

namespace WeightedCnf

/-- Why an output fails. -/
inductive SinkError where
  | writeFailed
  | flushFailed
deriving DecidableEq, Repr

def SinkError.message : SinkError → String
  | writeFailed => "write failed"
  | flushFailed => "flush failed"

/-- A receiver of text. -/
structure Sink where
  /-- Whether a write fails after which all of this text would have been received. -/
  refuses : List Char → Bool := fun _ => false
  /-- Whether the output cannot be brought to an end. -/
  failsAtEnd : Bool := false

namespace Sink

def reliable : Sink := {}

def occursIn (pattern : List Char) : List Char → Bool
  | [] => pattern.isEmpty
  | text@(_ :: rest) => pattern.isPrefixOf text || occursIn pattern rest

def failingOn (pattern : List Char) : Sink :=
  { refuses := occursIn pattern }

def write (sink : Sink) (received text : List Char) : Except SinkError (List Char) :=
  if sink.refuses (received ++ text) then .error .writeFailed else .ok (received ++ text)

def flush (sink : Sink) : Except SinkError Unit :=
  if sink.failsAtEnd then .error .flushFailed else .ok ()

end Sink

end WeightedCnf

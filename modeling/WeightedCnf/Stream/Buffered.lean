import WeightedCnf.Stream.Basic
import WeightedCnf.Stream.Source
/-!
A stream that reads its source through a buffer. When it runs short it moves what is left to the front and fills
the whole buffer, so a failing read is met as soon as the buffer reaches it, even if enough bytes came before;
these stay in the buffer.
-/

namespace WeightedCnf

def overwrite (buffer : Array UInt8) (i : Nat) : List UInt8 → Array UInt8
  | [] => buffer
  | b :: bytes => overwrite (buffer.setIfInBounds i b) (i + 1) bytes

theorem size_overwrite (buffer : Array UInt8) (i : Nat) (bytes : List UInt8) :
    (overwrite buffer i bytes).size = buffer.size := by
  induction bytes generalizing buffer i with
  | nil => rfl
  | cons b bytes ih => rw [overwrite, ih, Array.size_setIfInBounds]

/-- The bytes are written over the old ones, and the others stay. -/
theorem toList_overwrite {buffer : Array UInt8} {i : Nat} {bytes : List UInt8} (h : i + bytes.length ≤ buffer.size) :
    (overwrite buffer i bytes).toList =
      buffer.toList.take i ++ (bytes ++ buffer.toList.drop (i + bytes.length)) := by
  induction bytes generalizing buffer i with
  | nil => exact (List.take_append_drop i buffer.toList).symm
  | cons b bytes ih =>
    have hi : i < buffer.toList.length := by
      rw [List.length_cons] at h
      rw [Array.length_toList]
      omega
    have hset : (buffer.setIfInBounds i b).toList = buffer.toList.take i ++ b :: buffer.toList.drop (i + 1) := by
      rw [Array.toList_setIfInBounds, List.set_eq_take_append_cons_drop, if_pos hi]
    rw [List.length_cons] at h
    have hlen : (buffer.toList.take i).length = i := by
      rw [List.length_take]
      omega
    have htake : (buffer.toList.take i ++ b :: buffer.toList.drop (i + 1)).take (i + 1) =
        buffer.toList.take i ++ [b] := by
      rw [List.take_append, hlen, List.take_of_length_le (by omega), Nat.add_sub_cancel_left]
      rfl
    have hdrop : (buffer.toList.take i ++ b :: buffer.toList.drop (i + 1)).drop (i + 1 + bytes.length) =
        buffer.toList.drop (i + 1 + bytes.length) := by
      rw [List.drop_append, hlen, List.drop_of_length_le (by omega), List.nil_append,
        show i + 1 + bytes.length - i = bytes.length + 1 by omega, List.drop_succ_cons, List.drop_drop]
    rw [overwrite, ih (by rw [Array.size_setIfInBounds]; omega), hset, htake, hdrop, List.length_cons,
      List.append_assoc, List.singleton_append, List.cons_append, Nat.add_assoc i 1, Nat.add_comm 1]

/-- A buffered stream. The bytes that were read and not yet passed are those of the buffer from `start` to `stop`. -/
structure BufferedStream where
  buffer : Array UInt8
  start : Nat := 0
  stop : Nat := 0
  source : Source
  position : Position := {}
  buffer_pos : 0 < buffer.size
  start_le : start ≤ stop := by exact Nat.le_refl _
  stop_le : stop ≤ buffer.size := by exact Nat.zero_le _

namespace BufferedStream

def ofSource (capacity : Nat) (source : Source) : Except Fault BufferedStream :=
  if h : 0 < capacity then
    .ok { buffer := .replicate capacity 0, buffer_pos := by rwa [Array.size_replicate], source }
  else .error .emptyBuffer

def usualCapacity : Nat := 64 * 1024

def ofSourceUsual (source : Source) : BufferedStream where
  buffer := .replicate usualCapacity 0
  buffer_pos := by rw [Array.size_replicate]; decide
  source := source

/-- The bytes that were read and not yet passed. -/
def pending (s : BufferedStream) : List UInt8 :=
  (s.buffer.extract s.start s.stop).toList

def available (s : BufferedStream) : Nat :=
  s.stop - s.start

/-- Moves the bytes that were not yet passed to the front of the buffer. -/
def compact (s : BufferedStream) : BufferedStream :=
  if s.start = 0 then s
  else
    { s with
      buffer := overwrite s.buffer 0 s.pending
      start := 0
      stop := s.stop - s.start
      buffer_pos := by
        rw [size_overwrite]
        exact s.buffer_pos
      start_le := Nat.zero_le _
      stop_le := by
        rw [size_overwrite]
        exact Nat.le_trans (Nat.sub_le _ _) s.stop_le }

def append (s : BufferedStream) (bytes : List UInt8) (h : bytes.length ≤ s.buffer.size - s.stop) : BufferedStream :=
  { s with
    buffer := overwrite s.buffer s.stop bytes
    stop := s.stop + bytes.length
    buffer_pos := by
      rw [size_overwrite]
      exact s.buffer_pos
    start_le := Nat.le_trans s.start_le (Nat.le_add_right _ _)
    stop_le := by
      rw [size_overwrite]
      have := s.stop_le
      omega }

section Pending
variable (s : BufferedStream)

theorem pending_eq : s.pending = (s.buffer.toList.drop s.start).take s.available := by
  rw [pending, Array.toList_extract, List.extract_eq_take_drop, available]

theorem length_pending : s.pending.length = s.available := by
  have := s.stop_le
  rw [pending_eq, List.length_take, List.length_drop, Array.length_toList, available]
  omega

theorem source_compact : s.compact.source = s.source := by
  unfold compact
  split <;> rfl

theorem position_compact : s.compact.position = s.position := by
  unfold compact
  split <;> rfl

theorem start_compact : s.compact.start = 0 := by
  unfold compact
  split
  · assumption
  · rfl

theorem stop_compact : s.compact.stop = s.available := by
  unfold compact
  split
  · rename_i hfront
    rw [available, hfront, Nat.sub_zero]
  · rfl

theorem size_compact : s.compact.buffer.size = s.buffer.size := by
  unfold compact
  split
  · rfl
  · exact size_overwrite _ _ _

theorem pending_compact : s.compact.pending = s.pending := by
  unfold compact
  split
  · rfl
  · have hlength := s.length_pending
    rw [pending_eq]
    dsimp only [available] at hlength ⊢
    have hfits : 0 + s.pending.length ≤ s.buffer.size := by
      have := s.stop_le
      omega
    rw [toList_overwrite hfits, List.take_zero, List.nil_append, List.drop_zero, Nat.sub_zero, ← hlength,
      List.take_left]

theorem pending_append {bytes : List UInt8} (h : bytes.length ≤ s.buffer.size - s.stop) :
    (s.append bytes h).pending = s.pending ++ bytes := by
  have hstart := s.start_le
  have hstop := s.stop_le
  have hfits : s.stop + bytes.length ≤ s.buffer.size := by omega
  have hfront : (s.buffer.toList.take s.stop).drop s.start = s.pending := by
    rw [pending_eq, List.drop_take, available]
  have hbehind : s.start - (s.buffer.toList.take s.stop).length = 0 := by
    rw [List.length_take, Array.length_toList]
    omega
  have hlength : (s.pending ++ bytes).length = s.stop + bytes.length - s.start := by
    rw [List.length_append, length_pending, available]
    omega
  rw [pending_eq, append, available, toList_overwrite hfits, List.drop_append, hfront, hbehind, List.drop_zero,
    ← List.append_assoc, ← hlength, List.take_left]

/-- The next bytes are found at the start of what was read. -/
theorem extract_start {count : Nat} (h : count ≤ s.available) :
    (s.buffer.extract s.start (s.start + count)).toList = s.pending.take count := by
  rw [Array.toList_extract, List.extract_eq_take_drop, Nat.add_sub_cancel_left, pending_eq, List.take_take,
    Nat.min_eq_left h]

theorem getElem?_start (h : s.pending ≠ []) : s.buffer[s.start]? = s.pending.head? := by
  have hne : s.available ≠ 0 := by
    rw [← length_pending]
    exact Nat.ne_of_gt (List.length_pos_iff.mpr h)
  rw [pending_eq, List.head?_take, if_neg hne, List.head?_drop, Array.getElem?_toList]

end Pending

/-- Reads until the buffer is full or a read delivers nothing; tells whether there was a byte, or one came before. -/
def load (s : BufferedStream) (any : Bool) : EStateM.Result StreamError BufferedStream Bool :=
  if s.stop = s.buffer.size then .ok any s
  else
    match h : s.source.read (s.buffer.size - s.stop) with
    | (.interrupted, source) => load { s with source } any
    | (.failed, source) => .error .readFailed { s with source }
    | (.bytes [], source) => .ok any { s with source }
    | (.bytes (b :: bytes), source) =>
      load { s.append (b :: bytes) (Source.read_eq_bytes h).2.1 with source } true
termination_by s.source.turns.length + s.source.content.length
decreasing_by
  · obtain ⟨hcontent, -, hturns⟩ := Source.read_eq_interrupted h
    rw [hcontent]
    exact Nat.add_lt_add_right hturns _
  · obtain ⟨hcontent, -, -, hturns, -⟩ := Source.read_eq_bytes h
    rw [← hcontent, List.length_append, List.length_cons]
    omega

section Load
variable {s : BufferedStream} {any : Bool} {source : Source}

theorem load_of_full (hfull : s.stop = s.buffer.size) : s.load any = .ok any s := by
  rw [load, if_pos hfull]

variable (hroom : s.stop ≠ s.buffer.size)
include hroom

theorem load_of_interrupted (hread : s.source.read (s.buffer.size - s.stop) = (.interrupted, source)) :
    s.load any = load { s with source } any := by
  rw [load, if_neg hroom]
  split <;> rename_i h <;> cases hread.symm.trans h
  rfl

theorem load_of_failed (hread : s.source.read (s.buffer.size - s.stop) = (.failed, source)) :
    s.load any = .error .readFailed { s with source } := by
  rw [load, if_neg hroom]
  split <;> rename_i h <;> cases hread.symm.trans h
  rfl

theorem load_of_end (hread : s.source.read (s.buffer.size - s.stop) = (.bytes [], source)) :
    s.load any = .ok any { s with source } := by
  rw [load, if_neg hroom]
  split <;> rename_i h <;> cases hread.symm.trans h
  rfl

theorem load_of_bytes {b : UInt8} {bytes : List UInt8}
    (hread : s.source.read (s.buffer.size - s.stop) = (.bytes (b :: bytes), source)) :
    s.load any = load { s.append (b :: bytes) (Source.read_eq_bytes hread).2.1 with source } true := by
  rw [load, if_neg hroom]
  split <;> rename_i h <;> cases hread.symm.trans h
  rfl

end Load

/-- Each byte that comes is taken from the content of the source. -/
theorem length_content_load {s s' : BufferedStream} {any found : Bool} (h : s.load any = .ok found s') :
    s'.source.content.length ≤ s.source.content.length ∧
      (found = true → any = true ∨ s'.source.content.length < s.source.content.length) := by
  induction s, any using load.induct with
  | case1 s any hfull =>
    cases (load_of_full hfull).symm.trans h
    exact ⟨Nat.le_refl _, .inl⟩
  | case2 s any hroom source hread ih =>
    have hsource := ih ((load_of_interrupted hroom hread).symm.trans h)
    rwa [(Source.read_eq_interrupted hread).1] at hsource
  | case3 s any hroom source hread => cases (load_of_failed hroom hread).symm.trans h
  | case4 s any hroom source hread =>
    cases (load_of_end hroom hread).symm.trans h
    have hcontent := (Source.read_eq_bytes hread).1
    exact ⟨Nat.le_of_eq (congrArg List.length hcontent), .inl⟩
  | case5 s any hroom b bytes source hread ih =>
    obtain ⟨hle, -⟩ := ih ((load_of_bytes hroom hread).symm.trans h)
    have hlength := congrArg List.length (Source.read_eq_bytes hread).1
    rw [List.length_append, List.length_cons] at hlength
    dsimp only at hle
    exact ⟨by omega, fun _ => .inr (by omega)⟩

/-- Fills the whole buffer, as far as the source goes; tells whether a byte came. -/
def refill (s : BufferedStream) : EStateM.Result StreamError BufferedStream Bool :=
  s.compact.load false

theorem length_content_refill {s s' : BufferedStream} (h : s.refill = .ok true s') :
    s'.source.content.length < s.source.content.length := by
  obtain ⟨-, hlt⟩ := length_content_load h
  rw [source_compact] at hlt
  exact (hlt rfl).resolve_left Bool.false_ne_true

/-- Tries to have `count` bytes in the buffer; false when the source ends before. -/
def fill (count : Nat) (s : BufferedStream) : EStateM.Result StreamError BufferedStream Bool :=
  if count ≤ s.available then .ok true s
  else
    match _h : s.refill with
    | .ok true s' => fill count s'
    | .ok false s' => .ok false s'
    | .error e s' => .error e s'
termination_by s.source.content.length
decreasing_by exact length_content_refill _h

section Fill
variable {s s' : BufferedStream} {count : Nat}

theorem fill_of_le (h : count ≤ s.available) : fill count s = .ok true s := by
  rw [fill, if_pos h]

variable (h : ¬ count ≤ s.available)
include h

theorem fill_of_refill (hrefill : s.refill = .ok true s') : fill count s = fill count s' := by
  rw [fill, if_neg h]
  split <;> rename_i hother <;> cases hrefill.symm.trans hother
  rfl

theorem fill_of_refill_error {e : StreamError} (hrefill : s.refill = .error e s') : fill count s = .error e s' := by
  rw [fill, if_neg h]
  split <;> rename_i hother <;> cases hrefill.symm.trans hother
  rfl

theorem fill_of_refill_false (hrefill : s.refill = .ok false s') : fill count s = .ok false s' := by
  rw [fill, if_neg h]
  split <;> rename_i hother <;> cases hrefill.symm.trans hother
  rfl

end Fill

def pass (s : BufferedStream) : BufferedStream :=
  if h : s.start < s.stop then
    have hsize : s.start < s.buffer.size := Nat.lt_of_lt_of_le h s.stop_le
    { s with
      start := s.start + 1
      position := s.position.after s.buffer[s.start]
      start_le := h }
  else s

theorem pass_of_nil {s : BufferedStream} (h : s.pending = []) : s.pass = s := by
  have hlength := s.length_pending
  rw [h, List.length_nil, available] at hlength
  exact dif_neg (by omega)

theorem pass_of_cons {s : BufferedStream} {b : UInt8} {bytes : List UInt8} (h : s.pending = b :: bytes) :
    s.pass.pending = bytes ∧ s.pass.position = s.position.after b ∧ s.pass.buffer.size = s.buffer.size ∧
      s.pass.source = s.source := by
  have hlength := s.length_pending
  rw [h, List.length_cons, available] at hlength
  have hlt : s.start < s.stop := by omega
  have hsize : s.start < s.buffer.toList.length := Nat.lt_of_lt_of_le hlt s.stop_le
  have hpending := s.pending_eq
  have havailable : s.available = s.stop - (s.start + 1) + 1 := by
    rw [available]
    omega
  rw [h, List.drop_eq_getElem_cons hsize, havailable, List.take_succ_cons, Array.getElem_toList] at hpending
  obtain ⟨hb, hbytes⟩ := List.cons.inj hpending
  rw [pass, dif_pos hlt]
  refine ⟨?_, congrArg s.position.after hb.symm, rfl, rfl⟩
  rw [pending_eq, hbytes, available]

def peek : EStateM StreamError BufferedStream (Option UInt8) := do
  if ← fill 1 then
    let s ← get
    return s.buffer[s.start]?
  else return none

def passPrefix (bytes : List UInt8) : EStateM StreamError BufferedStream Bool := do
  let capacity := (← get).buffer.size
  if capacity < bytes.length then throw (.prefixTooLong bytes.length capacity)
  if ← fill bytes.length then
    let s ← get
    if (s.buffer.extract s.start (s.start + bytes.length)).toList = bytes then
      set (bytes.foldl (fun s _ => s.pass) s)
      return true
    else return false
  else return false

instance : ByteStream BufferedStream where
  position := BufferedStream.position
  unread s := s.available + s.source.content.length
  peek := peek
  pass := pass
  passPrefix := passPrefix

end BufferedStream

end WeightedCnf

import WeightedCnf.Proofs.Agreement
import WeightedCnf.Proofs.Outcomes
import WeightedCnf.Proofs.PlainReading

/-! Streams with a source that is to fail. The bytes in front of the failure can be read as long as the buffer can do
without another read; where the input should end there is an error. -/
namespace WeightedCnf
open ByteStream (unread)

namespace Source
variable {s s' : Source} {room : Nat}

private theorem deliver_of_nil (hfails : s.ending = .failure) (hcontent : s.content = []) (count : Nat) :
    s.deliver count = (.failed, s) := by
  rw [deliver, hcontent, hfails]
  rfl

private theorem read_ne_nil (hfails : s.ending = .failure) (hroom : 0 < room) : s.read room ≠ (.bytes [], s') := by
  intro h
  obtain ⟨hcontent, -, -, -, hend⟩ := read_eq_bytes h
  rw [hend rfl hroom, List.append_nil] at hcontent
  unfold read at h
  split at h
  · cases (deliver_of_nil hfails hcontent.symm room).symm.trans h
  · cases h
  · rename_i most turns _
    have hdeliver := deliver_of_nil (s := { s with turns }) hfails hcontent.symm (min (max most 1) room)
    cases hdeliver.symm.trans h

end Source

namespace BufferedStream
variable {s s' : BufferedStream} {any found : Bool} {n count : Nat}

theorem unread_eq (s : BufferedStream) : unread s = s.available + s.source.content.length := rfl

/-- In front of a source that is to fail, loading ends well only with a full buffer. -/
private theorem load_of_failure (hfails : s.source.ending = .failure) (h : s.load any = .ok found s') :
    s'.source.ending = .failure ∧ s'.buffer.size = s.buffer.size ∧ s'.start = s.start ∧ s'.stop = s'.buffer.size ∧
      unread s' = unread s ∧ (any = true → found = true) ∧ (found = false → s'.available = s.available) := by
  induction s, any using load.induct with
  | case1 s any hfull =>
    cases (load_of_full hfull).symm.trans h
    exact ⟨hfails, rfl, rfl, hfull, rfl, id, fun _ => rfl⟩
  | case2 s any hroom source hread ih =>
    obtain ⟨hcontent, hending, -⟩ := Source.read_eq_interrupted hread
    have hload := ih (hending.trans hfails) ((load_of_interrupted hroom hread).symm.trans h)
    rwa [unread_eq { s with source }, hcontent] at hload
  | case3 s any hroom source hread => cases (load_of_failed hroom hread).symm.trans h
  | case4 s any hroom source hread =>
    have hsize := s.stop_le
    exact absurd hread (Source.read_ne_nil hfails (by omega))
  | case5 s any hroom b bytes source hread ih =>
    obtain ⟨hcontent, hlength, hending, -⟩ := Source.read_eq_bytes hread
    obtain ⟨hends, hsize, hstart, hfull, hunread, hfound, -⟩ :=
      ih (hending.trans hfails) ((load_of_bytes hroom hread).symm.trans h)
    refine ⟨hends, hsize.trans (size_overwrite _ _ _), hstart, hfull, hunread.trans ?_, fun _ => hfound rfl,
      fun hfalse => ?_⟩
    · have hle := s.start_le
      have hcount := congrArg List.length hcontent
      rw [List.length_append] at hcount
      rw [unread_eq, unread_eq, available, available]
      dsimp only [append]
      omega
    · exact absurd (hfound rfl) (by rw [hfalse]; exact Bool.false_ne_true)

private theorem refill_of_failure (hfails : s.source.ending = .failure) (h : s.refill = .ok found s') :
    s'.source.ending = .failure ∧ s'.buffer.size = s.buffer.size ∧ s'.available = s.buffer.size ∧
      unread s' = unread s ∧ (found = false → s'.available = s.available) := by
  have havailable : s.compact.available = s.available := by
    rw [← length_pending, pending_compact, length_pending]
  obtain ⟨hends, hsize, hstart, hfull, hunread, -, hnone⟩ := load_of_failure (s.source_compact ▸ hfails) h
  rw [size_compact] at hsize
  refine ⟨hends, hsize, ?_, hunread.trans ?_, fun hfalse => (hnone hfalse).trans havailable⟩
  · rw [available, hstart, start_compact, hfull]
    exact hsize
  · rw [unread_eq, unread_eq, source_compact, havailable]

private theorem fill_of_failure (hfails : s.source.ending = .failure) (hcount : count ≤ s.buffer.size)
    (h : fill count s = .ok found s') : found = true ∧ count ≤ s'.available ∧
      s'.source.ending = .failure ∧ s'.buffer.size = s.buffer.size ∧ unread s' = unread s := by
  induction s using fill.induct count with
  | case1 s hle =>
    cases (fill_of_le hle).symm.trans h
    exact ⟨rfl, hle, hfails, rfl, rfl⟩
  | case2 s hle s₁ hrefill ih =>
    obtain ⟨hends, hsize, -, hunread, -⟩ := refill_of_failure hfails hrefill
    obtain ⟨hfound, havailable, hends', hsize', hunread'⟩ :=
      ih hends (hsize ▸ hcount) ((fill_of_refill hle hrefill).symm.trans h)
    exact ⟨hfound, havailable, hends', hsize'.trans hsize, hunread'.trans hunread⟩
  | case3 s hle s₁ hrefill =>
    obtain ⟨-, -, hfull, -, hnone⟩ := refill_of_failure hfails hrefill
    have havailable := hnone rfl
    omega
  | case4 s hle e s₁ hrefill => cases (fill_of_refill_error hle hrefill).symm.trans h

/-- The source is to fail, the buffer has room for prefixes, and no more than `n` bytes are unread. -/
structure Fails (n : Nat) (s : BufferedStream) : Prop where
  ending : s.source.ending = .failure
  capacity : 6 ≤ s.buffer.size
  unread_le : unread s ≤ n

/-- Moreover the next byte is in the buffer. -/
structure FailsLater (n : Nat) (s : BufferedStream) : Prop extends Fails n s where
  pending : s.pending ≠ []

private theorem Fails.fill (h : Fails n s) (hcount : count ≤ 6) (hfill : fill count s = .ok found s') :
    found = true ∧ count ≤ s'.available ∧ Fails n s' := by
  obtain ⟨hfound, havailable, hends, hsize, hunread⟩ :=
    fill_of_failure h.ending (Nat.le_trans hcount h.capacity) hfill
  exact ⟨hfound, havailable, hends, hsize ▸ h.capacity, hunread ▸ h.unread_le⟩

/-- There is always another byte, unless the stream fails. -/
theorem Fails.peek {next : Option UInt8} (h : Fails n s) (hpeek : peek s = .ok next s') :
    (∃ b, next = some b) ∧ FailsLater n s' := by
  obtain ⟨found, s₁, hfill, hpeek⟩ := run_bind_eq_ok.mp hpeek
  obtain ⟨rfl, havailable, hs₁⟩ := h.fill (by decide) hfill
  have hpending : s₁.pending ≠ [] := by
    rw [← List.length_pos_iff, length_pending]
    exact havailable
  obtain ⟨b, bytes, hb⟩ := List.exists_cons_of_ne_nil hpending
  have hnext := getElem?_start s₁ hpending
  rw [hb] at hnext
  cases hpeek
  exact ⟨⟨b, hnext⟩, hs₁, hpending⟩

theorem unread_pass (h : s.pending ≠ []) : unread s.pass + 1 = unread s := by
  obtain ⟨b, bytes, hb⟩ := List.exists_cons_of_ne_nil h
  obtain ⟨hpass, -, -, hsource⟩ := pass_of_cons hb
  rw [unread_eq, unread_eq, hsource, ← length_pending, ← length_pending, hpass, hb, List.length_cons]
  omega

theorem FailsLater.pass (h : FailsLater n s) : Fails (n - 1) s.pass := by
  have hunread := unread_pass h.pending
  have hle := h.unread_le
  obtain ⟨b, bytes, hb⟩ := List.exists_cons_of_ne_nil h.pending
  obtain ⟨-, -, hsize, hsource⟩ := pass_of_cons hb
  exact ⟨hsource ▸ h.ending, hsize ▸ h.capacity, by omega⟩

private theorem Fails.mono {m : Nat} (h : Fails n s) (hle : n ≤ m) : Fails m s :=
  ⟨h.ending, h.capacity, Nat.le_trans h.unread_le hle⟩

private theorem Fails.foldl_pass (h : Fails n s) (bytes : List UInt8) :
    Fails n (bytes.foldl (fun s _ => s.pass) s) := by
  induction bytes generalizing s with
  | nil => exact h
  | cons b bytes ih =>
    have hpass : Fails n s.pass := by
      by_cases hpending : s.pending = []
      · rwa [pass_of_nil hpending]
      · exact (FailsLater.pass ⟨h, hpending⟩).mono (Nat.sub_le n 1)
    exact ih hpass

theorem Fails.passPrefix {bytes : List UInt8} (h : Fails n s) (hbytes : bytes.length ≤ 6)
    (hpass : passPrefix bytes s = .ok found s') : Fails n s' := by
  unfold BufferedStream.passPrefix at hpass
  obtain ⟨_, _, hget, hpass⟩ := run_bind_eq_ok.mp hpass
  cases hget
  rw [if_neg (Nat.not_lt.mpr (Nat.le_trans hbytes h.capacity))] at hpass
  obtain ⟨full, s₁, hfill, hpass⟩ := run_bind_eq_ok.mp hpass
  obtain ⟨rfl, -, hs₁⟩ := h.fill hbytes hfill
  change (if (s₁.buffer.extract s₁.start (s₁.start + bytes.length)).toList = bytes then _ else _ :
    EStateM StreamError BufferedStream Bool) s₁ = _ at hpass
  split at hpass
  · cases hpass
    exact hs₁.foldl_pass bytes
  · cases hpass
    exact hs₁

/-- Reading leaves a stream that is to fail as one. -/
theorem matching_fails (n : Nat) : Matching Eq (fun _ _ => True) (fun s t => s = t ∧ Fails n t)
    (fun s t => s = t ∧ FailsLater n t) where
  looked _ _ h := ⟨h.1, h.2.toFails⟩
  failed _ _ _ := trivial
  place _ _ e h := congrArg (e ·.position) h.1
  unread _ _ h := congrArg unread h.1
  peek := .self fun _ _ _ h hpeek => (h.peek hpeek).2
  pass _ _ h := ⟨congrArg BufferedStream.pass h.1, h.2.pass.mono (Nat.sub_le n 1)⟩
  unread_pass s t b t' h hpeek := by
    have hall : Fails (unread t) t := ⟨h.2.ending, h.2.capacity, Nat.le_refl _⟩
    obtain ⟨-, hlater⟩ := hall.peek hpeek
    have hless := unread_pass hlater.pending
    have hle := hlater.unread_le
    change unread t'.pass < unread t
    omega

private theorem load_of_short (hfails : s.source.ending = .failure)
    (hshort : s.stop + s.source.content.length < s.buffer.size) (any : Bool) :
    ∃ s', s.load any = .error .readFailed s' := by
  induction s, any using load.induct with
  | case1 s any hfull => omega
  | case2 s any hroom source hread ih =>
    obtain ⟨hcontent, hending, -⟩ := Source.read_eq_interrupted hread
    rw [load_of_interrupted hroom hread]
    exact ih (hending.trans hfails) (by rw [hcontent]; exact hshort)
  | case3 s any hroom source hread => exact ⟨_, load_of_failed hroom hread⟩
  | case4 s any hroom source hread => exact absurd hread (Source.read_ne_nil hfails (by omega))
  | case5 s any hroom b bytes source hread ih =>
    obtain ⟨hcontent, hlength, hending, -⟩ := Source.read_eq_bytes hread
    have hcount := congrArg List.length hcontent
    rw [List.length_append] at hcount
    rw [load_of_bytes hroom hread]
    refine ih (hending.trans hfails) ?_
    dsimp only [append]
    rw [size_overwrite]
    omega

/-- Asking for bytes that cannot come is an error. -/
theorem fill_of_short (hfails : s.source.ending = .failure) (hcount : ¬ count ≤ s.available)
    (hshort : s.available + s.source.content.length < s.buffer.size) :
    ∃ s', fill count s = .error .readFailed s' := by
  obtain ⟨s', hload⟩ := load_of_short (s := s.compact) (s.source_compact ▸ hfails)
    (by rw [source_compact, stop_compact, size_compact]; exact hshort) false
  exact ⟨s', fill_of_refill_error hcount hload⟩

end BufferedStream

/-- The bytes of a list, with a failure behind them. -/
structure TornStream extends PlainStream where
  /-- How many bytes are left. It is kept, as counting them takes long. -/
  left : Nat
  length_rest : rest.length = left

namespace TornStream

def pass (t : TornStream) : TornStream where
  toPlainStream := t.toPlainStream.pass
  left := t.left - 1
  length_rest := by rw [PlainStream.rest_pass, List.length_tail, t.length_rest]

def peek : EStateM StreamError TornStream (Option UInt8) := fun t =>
  match t.rest with
  | [] => .error .readFailed t
  | b :: _ => .ok (some b) t

def passPrefix (bytes : List UInt8) : EStateM StreamError TornStream Bool := fun t =>
  if t.left < bytes.length then .error .readFailed t
  else if bytes.isPrefixOf t.rest then .ok true (bytes.foldl (fun t _ => t.pass) t)
  else .ok false t

instance : ByteStream TornStream where
  position t := t.position
  unread := left
  peek := peek
  pass := pass
  passPrefix := passPrefix

end TornStream

namespace BufferedStream
variable {s : BufferedStream} {t : TornStream} {count : Nat}

/-- The bytes of a stream that is to fail are those of the torn one. All of them were read, or all of them fit into
the buffer exactly, so they are all read before the failure. -/
structure Tears (s : BufferedStream) (t : TornStream) : Prop where
  ending : s.source.ending = .failure
  capacity : 6 ≤ s.buffer.size
  rest : t.rest = s.pending ++ s.source.content
  position : t.position = s.position
  loads : s.source.content = [] ∨ s.pending = [] ∧ s.source.content.length = s.buffer.size

/-- Moreover the next byte is in the buffer. -/
structure TearsLater (s : BufferedStream) (t : TornStream) : Prop extends Tears s t where
  pending : s.pending ≠ []

theorem tears_ofSourceUsual {source : Source} (hfails : source.ending = .failure)
    (hfull : source.content.length = usualCapacity) :
    Tears (ofSourceUsual source) ⟨⟨source.content, {}⟩, _, hfull⟩ := by
  have hsize : (ofSourceUsual source).buffer.size = usualCapacity := Array.size_replicate
  have hempty : (ofSourceUsual source).pending = [] := List.length_eq_zero_iff.mp (length_pending _)
  refine ⟨hfails, by rw [hsize]; decide, ?_, rfl, .inr ⟨hempty, hfull.trans hsize.symm⟩⟩
  rw [hempty, List.nil_append]
  rfl

private theorem Tears.left (h : Tears s t) : t.left = s.available + s.source.content.length := by
  rw [← t.length_rest, h.rest, List.length_append, length_pending]

private theorem load_all (any : Bool) (hfails : s.source.ending = .failure)
    (hfits : s.stop + s.source.content.length = s.buffer.size)
    (hany : any = true ∨ s.source.content ≠ []) : ∃ s', s.load any = .ok true s' ∧ s'.source.content = [] ∧
      s'.source.ending = .failure ∧ s'.buffer.size = s.buffer.size ∧ s'.position = s.position ∧
      s'.pending = s.pending ++ s.source.content := by
  induction s, any using load.induct with
  | case1 s any hfull =>
    have hcontent : s.source.content = [] := List.length_eq_zero_iff.mp (by omega)
    have htrue := hany.resolve_right (not_not_intro hcontent)
    exact ⟨s, by rw [load_of_full hfull, htrue], hcontent, hfails, rfl, rfl, by rw [hcontent, List.append_nil]⟩
  | case2 s any hroom source hread ih =>
    obtain ⟨hcontent, hending, -⟩ := Source.read_eq_interrupted hread
    rw [load_of_interrupted hroom hread, ← hcontent]
    rw [← hcontent] at hfits hany
    exact ih (hending.trans hfails) hfits hany
  | case3 s any hroom source hread =>
    rw [(Source.read_eq_failed hread).1] at hfits
    exact absurd hfits hroom
  | case4 s any hroom source hread =>
    have hsize := s.stop_le
    exact absurd hread (Source.read_ne_nil hfails (by omega))
  | case5 s any hroom b bytes source hread ih =>
    obtain ⟨hcontent, hlength, hending, -⟩ := Source.read_eq_bytes hread
    have hcount := congrArg List.length hcontent
    rw [List.length_append] at hcount
    obtain ⟨s', hload, hnil, hends, hsize, hposition, hpending⟩ :=
      ih (hending.trans hfails) (by dsimp only [append]; rw [size_overwrite]; omega) (.inl rfl)
    refine ⟨s', (load_of_bytes hroom hread).trans hload, hnil, hends, hsize.trans (size_overwrite _ _ _), hposition,
      hpending.trans ?_⟩
    rw [← hcontent, ← List.append_assoc]
    exact congrArg (· ++ source.content) (s.pending_append hlength)

private theorem Tears.fill (h : Tears s t) (hleft : count ≤ t.left) :
    ∃ s', BufferedStream.fill count s = .ok true s' ∧ Tears s' t ∧ count ≤ s'.available := by
  by_cases havailable : count ≤ s.available
  · exact ⟨s, fill_of_le havailable, h, havailable⟩
  have hcontent : s.source.content ≠ [] := by
    intro hnil
    rw [h.left, hnil] at hleft
    exact havailable hleft
  obtain ⟨hpending, hfull⟩ := h.loads.resolve_left hcontent
  have hempty : s.available = 0 := by rw [← length_pending, hpending, List.length_nil]
  obtain ⟨s', hload, hnil, hends, hsize, hposition, hloaded⟩ := load_all (s := s.compact) false
    (s.source_compact ▸ h.ending)
    (by rw [source_compact, stop_compact, size_compact, hempty, Nat.zero_add]; exact hfull)
    (.inr (s.source_compact ▸ hcontent))
  rw [size_compact] at hsize
  rw [position_compact] at hposition
  rw [pending_compact, source_compact, ← h.rest] at hloaded
  have hmore : count ≤ s'.available := by
    rwa [← length_pending, hloaded, t.length_rest]
  refine ⟨s', ?_, ⟨hends, hsize ▸ h.capacity, ?_, h.position.trans hposition.symm, .inl hnil⟩, hmore⟩
  · exact (fill_of_refill havailable hload).trans (fill_of_le hmore)
  · rw [hloaded, hnil, List.append_nil]

private theorem Tears.fill_error (h : Tears s t) (hcount : count ≤ 6) (hleft : t.left < count) :
    ∃ s', BufferedStream.fill count s = .error .readFailed s' := by
  have hunread := h.left
  have hcapacity := h.capacity
  exact fill_of_short h.ending (by omega) (by omega)

private theorem agree_peek_torn :
    Agree Eq (fun _ _ => True) Tears TearsLater BufferedStream.peek TornStream.peek := by
  intro s t h
  unfold TornStream.peek
  have hlength := t.length_rest
  split
  · rename_i hrest
    rw [hrest] at hlength
    have hleft : t.left < 1 := hlength ▸ Nat.one_pos
    obtain ⟨s', hfill⟩ := h.fill_error (by decide) hleft
    have hpeek : BufferedStream.peek s = .error .readFailed s' := run_bind_of_error hfill
    rw [hpeek]
    exact .error rfl trivial
  · rename_i b bytes hrest
    rw [hrest] at hlength
    have hleft : 1 ≤ t.left := hlength ▸ Nat.succ_pos _
    obtain ⟨s', hfill, hs', havailable⟩ := h.fill hleft
    have hpending : s'.pending ≠ [] := by
      rwa [← List.length_pos_iff, length_pending]
    obtain ⟨c, cs, hc⟩ := List.exists_cons_of_ne_nil hpending
    have happend := hs'.rest
    rw [hrest, hc, List.cons_append] at happend
    have hnext : s'.buffer[s'.start]? = some b := by
      rw [getElem?_start s' hpending, hc, (List.cons.inj happend).1]
      rfl
    have hpeek : BufferedStream.peek s = .ok (some b) s' := by
      rw [← hnext]
      exact run_bind_of_ok hfill
    rw [hpeek]
    exact .ok ⟨hs', hpending⟩

private theorem TearsLater.pass (h : TearsLater s t) : Tears s.pass t.pass := by
  have hcontent := h.loads.resolve_right fun hempty => h.pending hempty.1
  obtain ⟨b, bytes, hb⟩ := List.exists_cons_of_ne_nil h.pending
  obtain ⟨hpass, hposition, hsize, hsource⟩ := pass_of_cons hb
  have hrest := h.rest
  rw [hcontent, List.append_nil, hb] at hrest
  refine ⟨hsource ▸ h.ending, hsize ▸ h.capacity, ?_, ?_, .inl (hsource ▸ hcontent)⟩
  · rw [hpass, hsource, hcontent, List.append_nil]
    change t.toPlainStream.pass.rest = bytes
    rw [PlainStream.rest_pass, hrest, List.tail_cons]
  · change t.toPlainStream.pass.position = _
    rw [hposition, ← h.position, PlainStream.pass, hrest]

private theorem Tears.foldl_pass {bytes : List UInt8} (h : Tears s t) (hbytes : bytes <+: s.pending) :
    Tears (bytes.foldl (fun s _ => s.pass) s) (bytes.foldl (fun t _ => t.pass) t) := by
  induction bytes generalizing s t with
  | nil => exact h
  | cons b bytes ih =>
    obtain ⟨rest, hrest⟩ := hbytes
    have hlater : TearsLater s t := ⟨h, hrest ▸ List.cons_ne_nil _ _⟩
    exact ih hlater.pass ((pass_of_cons hrest.symm).1 ▸ List.prefix_append bytes rest)

theorem agree_passPrefix_torn {bytes : List UInt8} (hbytes : bytes.length ≤ 6) :
    Agree Eq (fun _ _ => True) Tears Tears (BufferedStream.passPrefix bytes) (TornStream.passPrefix bytes) := by
  intro s t h
  have hsize := Nat.le_trans hbytes h.capacity
  unfold TornStream.passPrefix
  split
  · rename_i hleft
    obtain ⟨s', hfill⟩ := h.fill_error hbytes hleft
    have hpass : BufferedStream.passPrefix bytes s = .error .readFailed s' := by
      rw [BufferedStream.passPrefix, run_bind_of_ok (x := get) (s := s) rfl, if_neg (Nat.not_lt.mpr hsize)]
      exact run_bind_of_error hfill
    rw [hpass]
    exact .error rfl trivial
  · rename_i hleft
    obtain ⟨s', hfill, hs', havailable⟩ := h.fill (Nat.le_of_not_lt hleft)
    have hlength : bytes.length ≤ s'.pending.length := by rwa [length_pending]
    have hiff : bytes.isPrefixOf t.rest = true ↔ s'.pending.take bytes.length = bytes := by
      rw [List.isPrefixOf_iff_prefix, hs'.rest, List.prefix_iff_eq_take, List.take_append_of_le_length hlength]
      exact eq_comm
    rw [passPrefix_of_fill hsize hfill, extract_start _ havailable]
    by_cases htake : s'.pending.take bytes.length = bytes
    · rw [if_pos ⟨rfl, htake⟩, if_pos (hiff.mpr htake)]
      exact .ok (hs'.foldl_pass (List.prefix_iff_eq_take.mpr htake.symm))
    · rw [if_neg fun h => htake h.2, if_neg fun h => htake (hiff.mp h)]
      exact .ok hs'

/-- The buffered instance and the torn one. -/
theorem matching_torn : Matching Eq (fun _ _ => True) Tears TearsLater where
  looked _ _ h := h.toTears
  failed _ _ _ := trivial
  place _ _ e h := congrArg e h.position.symm
  unread _ _ h := h.left.symm
  peek := agree_peek_torn
  pass _ _ h := h.pass
  unread_pass s t b t' _ h := by
    have hlength := t.length_rest
    change TornStream.peek t = _ at h
    unfold TornStream.peek at h
    split at h
    · cases h
    · rename_i hrest
      cases h
      rw [hrest, List.length_cons] at hlength
      change t.left - 1 < t.left
      omega

end BufferedStream
end WeightedCnf

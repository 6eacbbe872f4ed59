import WeightedCnf.Proofs.FailingStreams
import WeightedCnf.Proofs.Loops

/-! What is asked of a buffered stream uses up its bytes: filling the buffer takes finitely many reads and loses
nothing, and whatever passes bytes leaves as many less to be read. -/
namespace WeightedCnf
open ByteStream (unread)

namespace BufferedStream
variable {s s' : BufferedStream} {any found : Bool} {count : Nat}

private theorem length_le_of_read {b : UInt8} {bytes : List UInt8} {source : Source}
    (h : s.source.read (s.buffer.size - s.stop) = (.bytes (b :: bytes), source)) :
    (b :: bytes).length ≤ s.buffer.size - s.stop :=
  (Source.read_eq_bytes h).2.1

/-- One round of `load`, which is one read. -/
def loadRound (any : Bool) : EStateM StreamError BufferedStream (Bool ⊕ Bool) := fun s =>
  if s.stop = s.buffer.size then .ok (.inr any) s
  else
    match h : s.source.read (s.buffer.size - s.stop) with
    | (.interrupted, source) => .ok (.inl any) { s with source }
    | (.failed, source) => .error .readFailed { s with source }
    | (.bytes [], source) => .ok (.inr any) { s with source }
    | (.bytes (b :: bytes), source) =>
      .ok (.inl true) { s.append (b :: bytes) (length_le_of_read h) with source }

/-- The turns and bytes that a source has left. -/
def awaited (s : BufferedStream) : Nat :=
  s.source.turns.length + s.source.content.length

theorem descends_loadRound : Descends loadRound fun _ s => s.awaited := by
  intro any s any' s' h
  unfold loadRound at h
  split at h
  · cases h
  · split at h <;> rename_i hread
    · cases h
      obtain ⟨hcontent, -, hturns⟩ := Source.read_eq_interrupted hread
      unfold awaited
      dsimp only
      rw [hcontent]
      omega
    · cases h
    · cases h
    · cases h
      obtain ⟨hcontent, -, -, hturns, -⟩ := Source.read_eq_bytes hread
      unfold awaited
      dsimp only
      rw [← hcontent, List.length_append, List.length_cons]
      omega

theorem load_unroll (any : Bool) : (fun s : BufferedStream => s.load any) =
    loadRound any >>= Sum.elim (fun any s => s.load any) pure := by
  funext s
  cases hround : loadRound any s with
  | error e s' =>
    rw [run_bind_of_error hround]
    unfold loadRound at hround
    split at hround
    · cases hround
    · rename_i hroom
      split at hround <;> rename_i hread <;> cases hround
      exact load_of_failed hroom hread
  | ok next s' =>
    rw [run_bind_of_ok hround]
    unfold loadRound at hround
    split at hround
    · rename_i hfull
      cases hround
      exact load_of_full hfull
    · rename_i hroom
      split at hround <;> rename_i hread <;> cases hround
      · exact load_of_interrupted hroom hread
      · exact load_of_end hroom hread
      · exact load_of_bytes hroom hread

/-- One round of `fill`, which refills the buffer unless there is enough in it. -/
def fillRound (count : Nat) (_ : Unit) : EStateM StreamError BufferedStream (Unit ⊕ Bool) := fun s =>
  if count ≤ s.available then .ok (.inr true) s
  else
    match s.refill with
    | .ok true s' => .ok (.inl ()) s'
    | .ok false s' => .ok (.inr false) s'
    | .error e s' => .error e s'

theorem descends_fillRound (count : Nat) : Descends (fillRound count) fun _ s => s.source.content.length := by
  intro _ s _ s' h
  unfold fillRound at h
  split at h
  · cases h
  · split at h <;> rename_i hrefill <;> cases h
    exact length_content_refill hrefill

theorem fill_unroll (count : Nat) : fill count =
    fillRound count () >>= Sum.elim (fun _ => fill count) pure := by
  funext s
  by_cases havailable : count ≤ s.available
  · have hround : fillRound count () s = .ok (.inr true) s := if_pos havailable
    rw [run_bind_of_ok hround, fill_of_le havailable]
    rfl
  · cases hrefill : s.refill with
    | error e s' =>
      have hround : fillRound count () s = .error e s' := by
        rw [fillRound, if_neg havailable, hrefill]
      rw [run_bind_of_error hround, fill_of_refill_error havailable hrefill]
    | ok found s' =>
      cases found with
      | true =>
        have hround : fillRound count () s = .ok (.inl ()) s' := by
          rw [fillRound, if_neg havailable, hrefill]
        rw [run_bind_of_ok hround, fill_of_refill havailable hrefill]
        rfl
      | false =>
        have hround : fillRound count () s = .ok (.inr false) s' := by
          rw [fillRound, if_neg havailable, hrefill]
        rw [run_bind_of_ok hround, fill_of_refill_false havailable hrefill]
        rfl

/-- Loading moves bytes from the source to the buffer. Without a new one there is no room, or nothing left to load. -/
theorem unread_load (h : s.load any = .ok found s') : unread s' = unread s ∧ s'.buffer.size = s.buffer.size ∧
    s'.start = s.start ∧ (any = true → found = true) ∧
    (found = false → s'.stop = s.stop ∧ (s.stop = s.buffer.size ∨ s'.source.content = [])) := by
  induction s, any using load.induct with
  | case1 s any hfull =>
    cases (load_of_full hfull).symm.trans h
    exact ⟨rfl, rfl, rfl, id, fun _ => ⟨rfl, .inl hfull⟩⟩
  | case2 s any hroom source hread ih =>
    have hload := ih ((load_of_interrupted hroom hread).symm.trans h)
    rwa [unread_eq { s with source }, (Source.read_eq_interrupted hread).1] at hload
  | case3 s any hroom source hread => cases (load_of_failed hroom hread).symm.trans h
  | case4 s any hroom source hread =>
    have hsize := s.stop_le
    obtain ⟨hcontent, -, -, -, hend⟩ := Source.read_eq_bytes hread
    cases (load_of_end hroom hread).symm.trans h
    refine ⟨?_, rfl, rfl, id, fun _ => ⟨rfl, .inr (hend rfl (by omega))⟩⟩
    rw [unread_eq, unread_eq, ← hcontent]
    rfl
  | case5 s any hroom b bytes source hread ih =>
    obtain ⟨hcontent, hlength, -⟩ := Source.read_eq_bytes hread
    obtain ⟨hunread, hsize, hstart, hfound, -⟩ := ih ((load_of_bytes hroom hread).symm.trans h)
    refine ⟨hunread.trans ?_, hsize.trans (size_overwrite _ _ _), hstart, fun _ => hfound rfl, fun hfalse => ?_⟩
    · have hle := s.start_le
      have hcount := congrArg List.length hcontent
      rw [List.length_append] at hcount
      rw [unread_eq, unread_eq, available, available]
      dsimp only [append]
      omega
    · rw [hfound rfl] at hfalse
      cases hfalse

private theorem unread_refill (h : s.refill = .ok found s') : unread s' = unread s ∧ s'.buffer.size = s.buffer.size ∧
    (found = false → s'.available = s.available ∧ (s.available = s.buffer.size ∨ s'.source.content = [])) := by
  obtain ⟨hunread, hsize, hstart, -, hnone⟩ := unread_load h
  rw [unread_eq s.compact, source_compact, available, start_compact, stop_compact, Nat.sub_zero] at hunread
  rw [size_compact] at hsize hnone
  rw [start_compact] at hstart
  rw [stop_compact] at hnone
  refine ⟨hunread, hsize, fun hfalse => ?_⟩
  obtain ⟨hstop, hend⟩ := hnone hfalse
  exact ⟨by rw [available, hstart, hstop, Nat.sub_zero], hend⟩

/-- If there are not enough bytes, and the buffer has room for them, nothing is left to load. -/
theorem unread_fill (h : fill count s = .ok found s') : unread s' = unread s ∧ (found = true → count ≤ s'.available) ∧
    (found = false → s'.available < count ∧ (s'.available = s'.buffer.size ∨ s'.source.content = [])) := by
  induction s using fill.induct count with
  | case1 s hle =>
    cases (fill_of_le hle).symm.trans h
    exact ⟨rfl, fun _ => hle, fun h => absurd h.symm Bool.false_ne_true⟩
  | case2 s hle s₁ hrefill ih =>
    obtain ⟨hunread, -⟩ := unread_refill hrefill
    obtain ⟨hunread', hfill⟩ := ih ((fill_of_refill hle hrefill).symm.trans h)
    exact ⟨hunread'.trans hunread, hfill⟩
  | case3 s hle s₁ hrefill =>
    obtain ⟨hunread, hsize, hnone⟩ := unread_refill hrefill
    obtain ⟨havailable, hend⟩ := hnone rfl
    cases (fill_of_refill_false hle hrefill).symm.trans h
    rw [← havailable, ← hsize] at hend
    exact ⟨hunread, fun h => absurd h Bool.false_ne_true, fun _ => ⟨by omega, hend⟩⟩
  | case4 s hle e s₁ hrefill => cases (fill_of_refill_error hle hrefill).symm.trans h

/-- Looking at the next byte does not pass it. There is none only when none is left. -/
theorem unread_peek {next : Option UInt8} (h : peek s = .ok next s') : unread s' = unread s ∧
    ((∃ b, next = some b) ∧ s'.pending ≠ [] ∨ next = none ∧ unread s' = 0) := by
  obtain ⟨found, s₁, hfill, h⟩ := run_bind_eq_ok.mp h
  obtain ⟨hunread, hfound, hnone⟩ := unread_fill hfill
  cases found with
  | true =>
    have hpending : s₁.pending ≠ [] := by
      rw [← List.length_pos_iff, length_pending]
      exact hfound rfl
    obtain ⟨b, bytes, hb⟩ := List.exists_cons_of_ne_nil hpending
    have hnext := getElem?_start s₁ hpending
    rw [hb] at hnext
    cases h
    exact ⟨hunread, .inl ⟨⟨b, hnext⟩, hpending⟩⟩
  | false =>
    obtain ⟨havailable, hend⟩ := hnone rfl
    have hsize := s₁.buffer_pos
    have hcontent := hend.resolve_left (by omega)
    cases h
    refine ⟨hunread, .inr ⟨rfl, ?_⟩⟩
    rw [unread_eq, hcontent, List.length_nil]
    omega

theorem unread_pass_le (s : BufferedStream) : unread s.pass ≤ unread s := by
  by_cases hpending : s.pending = []
  · rw [pass_of_nil hpending]
  · exact Nat.le_of_lt (unread_pass hpending ▸ Nat.lt_succ_self _)

private theorem unread_foldl_pass (s : BufferedStream) (bytes : List UInt8) :
    unread (bytes.foldl (fun s _ => s.pass) s) ≤ unread s := by
  induction bytes generalizing s with
  | nil => exact Nat.le_refl _
  | cons b bytes ih => exact Nat.le_trans (ih s.pass) (unread_pass_le s)

theorem unread_passPrefix {bytes : List UInt8} (h : passPrefix bytes s = .ok found s') : unread s' ≤ unread s := by
  unfold passPrefix at h
  obtain ⟨_, _, hget, h⟩ := run_bind_eq_ok.mp h
  cases hget
  dsimp only at h
  split at h
  · cases h
  obtain ⟨full, s₁, hfill, h⟩ := run_bind_eq_ok.mp h
  obtain ⟨hunread, -⟩ := unread_fill hfill
  cases full with
  | true =>
    change (if (s₁.buffer.extract s₁.start (s₁.start + bytes.length)).toList = bytes then _ else _ :
      EStateM StreamError BufferedStream Bool) s₁ = _ at h
    split at h
    · cases h
      exact hunread ▸ unread_foldl_pass s₁ bytes
    · cases h
      exact Nat.le_of_eq hunread
  | false =>
    cases h
    exact Nat.le_of_eq hunread

/-- Reading never has more to read than before. Once the next byte has been looked at it is in the buffer, if there is
one. -/
theorem matching_unread (n : Nat) : Matching Eq (fun _ _ => True) (fun s t : BufferedStream => s = t ∧ unread t ≤ n)
    (fun s t : BufferedStream => s = t ∧ unread t ≤ n ∧ (t.pending ≠ [] ∨ unread t = 0)) where
  looked _ _ h := ⟨h.1, h.2.1⟩
  failed _ _ _ := trivial
  place _ _ e h := congrArg (e ·.position) h.1
  unread _ _ h := congrArg unread h.1
  peek := .self (p := (unread · ≤ n)) fun _ _ _ h hpeek => by
    obtain ⟨hunread, hnext⟩ := unread_peek hpeek
    exact ⟨Nat.le_trans (Nat.le_of_eq hunread) h, hnext.imp And.right And.right⟩
  pass _ t h := ⟨congrArg BufferedStream.pass h.1, Nat.le_trans (unread_pass_le t) h.2.1⟩
  unread_pass s t b t' h hpeek := by
    obtain ⟨hunread, ⟨-, hpending⟩ | ⟨hnone, -⟩⟩ := unread_peek hpeek
    · have hless := unread_pass hpending
      change unread t'.pass < unread t
      omega
    · cases hnone

end BufferedStream

namespace ByteStream
variable {s s' : BufferedStream} {q : UInt8 → Bool}

/-- One round of `passWhileFrom`, which looks at one byte. -/
def passRound {σ : Type} [ByteStream σ] (q : UInt8 → Bool) (passed : List UInt8) :
    EStateM StreamError σ (List UInt8 ⊕ List UInt8) := do
  match ← peek with
  | none => return .inr passed.reverse
  | some b =>
    if q b then
      modify pass
      return .inl (b :: passed)
    else return .inr passed.reverse

private theorem unread_passRound {passed : List UInt8} {next : List UInt8 ⊕ List UInt8}
    (h : passRound q passed s = .ok next s') : (∃ passed', next = .inl passed' ∧ passed'.length = passed.length + 1 ∧
      unread s' + 1 = unread s) ∨ next = .inr passed.reverse ∧ unread s' = unread s := by
  obtain ⟨b?, s₁, hpeek, h⟩ := run_bind_eq_ok.mp h
  obtain ⟨hunread, hnext⟩ := BufferedStream.unread_peek hpeek
  cases b? with
  | none =>
    cases h
    exact .inr ⟨rfl, hunread⟩
  | some b =>
    have hpending := hnext.elim And.right fun hnone => nomatch hnone.1
    dsimp only at h
    split at h
    · cases h
      exact .inl ⟨_, rfl, rfl, (BufferedStream.unread_pass hpending).trans hunread⟩
    · cases h
      exact .inr ⟨rfl, hunread⟩

private theorem descends_passRound (q : UInt8 → Bool) :
    Descends (passRound q) fun _ (s : BufferedStream) => unread s := by
  intro passed s passed' s' h
  obtain ⟨_, -, -, hless⟩ | ⟨hstop, -⟩ := unread_passRound h
  · exact Nat.lt_of_succ_le (Nat.le_of_eq hless)
  · cases hstop

private theorem passWhileFrom_unroll {σ : Type} [ByteStream σ] (q : UInt8 → Bool) (fuel : Nat) (passed : List UInt8) :
    passWhileFrom (σ := σ) q (fuel + 1) passed = passRound q passed >>= Sum.elim (passWhileFrom q fuel) pure := by
  rw [passWhileFrom, passRound, bind_assoc]
  refine congrArg (peek >>= ·) (funext fun next => ?_)
  cases next with
  | none => rfl
  | some b =>
    dsimp only
    split
    · rfl
    · rfl

/-- Passing bytes is a loop that ends after the last byte at the latest. -/
theorem loopsWithin_passWhile (q : UInt8 → Bool) (s : BufferedStream) :
    LoopsWithin (passRound q) (unread s + 1) [] s (passWhile q s) :=
  (descends_passRound q).loopsWithin (passWhileFrom_unroll q) (Nat.lt_succ_self _)

private theorem unread_of_loops {rounds : Nat} {passed bytes : List UInt8}
    {ending : EStateM.Result StreamError BufferedStream _}
    (h : Loops (passRound q) rounds passed s ending) (hok : ending = .ok bytes s') :
    unread s' + bytes.length = unread s + passed.length := by
  induction h with
  | stop hstop =>
    obtain ⟨_, hnext, -⟩ | ⟨hnext, hunread⟩ := unread_passRound hstop
    · cases hnext
    · cases hnext
      cases hok
      rw [hunread, List.length_reverse]
  | error => cases hok
  | step hstep _ ih =>
    obtain ⟨_, hnext, hlength, hunread⟩ | ⟨hnext, -⟩ := unread_passRound hstep
    · cases hnext
      have hrest := ih hok
      omega
    · cases hnext

private theorem unread_passWhile {bytes : List UInt8} (h : passWhile q s = .ok bytes s') :
    unread s' + bytes.length = unread s := by
  obtain ⟨rounds, -, hloops⟩ := loopsWithin_passWhile q s
  exact unread_of_loops hloops h

/-- A token has a byte at least. -/
theorem unread_token {text : List Char} (h : token s = .ok text s') : unread s' < unread s := by
  obtain ⟨_, s₁, hskip, h⟩ := run_bind_eq_ok.mp h
  obtain ⟨_, _, hget, h⟩ := run_bind_eq_ok.mp h
  cases hget
  obtain ⟨bytes, s₂, hpass, h⟩ := run_bind_eq_ok.mp h
  have hskipped := ((agree_skipBlanks (BufferedStream.matching_unread (unread s))) s s ⟨rfl, Nat.le_refl _⟩)
  rw [hskip] at hskipped
  have hle : unread s₁ ≤ unread s := by
    cases hskipped with
    | ok h => exact h.2.1
  have hpassed := unread_passWhile hpass
  dsimp only at h
  split at h
  · cases h
  · rename_i hnonempty
    have hpos := List.length_pos_iff.mpr (fun hnil => hnonempty (List.isEmpty_iff.mpr hnil))
    cases h
    omega

end ByteStream
end WeightedCnf

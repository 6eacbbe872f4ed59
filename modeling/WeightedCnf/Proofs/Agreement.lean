import WeightedCnf.Stream.Buffered
import WeightedCnf.Stream.Plain
import WeightedCnf.Stream.Token

/-! A buffered stream agrees with the plain stream of the same bytes, whatever the reads of its source
deliver. Computations agree when they have the same outcome from related states. -/
namespace WeightedCnf
variable {ε σ τ α β : Type}

/-- Two outcomes are the same, errors as far as `C` tells them apart, in states that are related: by `S` after a result
and by `E` after an error. -/
inductive SameResult (C : ε → ε → Prop) (E S : σ → τ → Prop) :
    EStateM.Result ε σ α → EStateM.Result ε τ α → Prop
  | ok {a s t} (h : S s t) : SameResult C E S (.ok a s) (.ok a t)
  | error {e e' s t} (hC : C e e') (h : E s t) : SameResult C E S (.error e s) (.error e' t)

/-- From states related by `R` both computations have the same outcome. -/
def Agree (C : ε → ε → Prop) (E R S : σ → τ → Prop) (x : EStateM ε σ α) (y : EStateM ε τ α) : Prop :=
  ∀ s t, R s t → SameResult C E S (x s) (y t)

section Computations
variable {C : ε → ε → Prop} {E R S T : σ → τ → Prop} {x : EStateM ε σ α} {y : EStateM ε τ α} {f : α → EStateM ε σ β}
  {g : α → EStateM ε τ β}

theorem SameResult.bind {s : σ} {t : τ} (hx : SameResult C E S (x s) (y t))
    (hf : ∀ a s' t', y t = .ok a t' → S s' t' → SameResult C E T (f a s') (g a t')) :
    SameResult C E T ((x >>= f) s) ((y >>= g) t) := by
  change SameResult C E T (EStateM.bind x f s) (EStateM.bind y g t)
  unfold EStateM.bind
  generalize x s = r, hy : y t = r' at hx
  cases hx with
  | ok h => exact hf _ _ _ hy h
  | error hC h => exact .error hC h

namespace Agree

theorem pure (a : α) : Agree C E R R (Pure.pure a) (Pure.pure a) := fun _ _ h => .ok h

theorem throw (h : ∀ s t, R s t → E s t) {e e' : ε} (hC : C e e') :
    Agree C E R S (throw e : EStateM ε σ α) (throw e' : EStateM ε τ α) :=
  fun s t hR => .error hC (h s t hR)

theorem bind (hx : Agree C E R S x y) (hf : ∀ a, Agree C E S T (f a) (g a)) :
    Agree C E R T (x >>= f) (y >>= g) :=
  fun s t h => (hx s t h).bind fun a s' t' _ h' => hf a s' t' h'

theorem map (h : Agree C E R S x y) (q : α → β) : Agree C E R S (q <$> x) (q <$> y) := by
  intro s t hs
  change SameResult C E S (EStateM.map q x s) (EStateM.map q y t)
  unfold EStateM.map
  have hxy := h s t hs
  generalize x s = r, y t = r' at hxy
  cases hxy with
  | ok h => exact .ok h
  | error hC h => exact .error hC h

theorem bind_get {f : σ → EStateM ε σ β} {g : τ → EStateM ε τ β}
    (h : ∀ s t, R s t → Agree C E R S (f s) (g t)) : Agree C E R S (get >>= f) (get >>= g) :=
  fun s t hR => h s t hR s t hR

theorem ite {c : Prop} [Decidable c] {x' : EStateM ε σ α} {y' : EStateM ε τ α} (h : Agree C E R S x y)
    (h' : Agree C E R S x' y') : Agree C E R S (if c then x else x') (if c then y else y') := by
  by_cases hc : c
  · rw [if_pos hc, if_pos hc]
    exact h
  · rw [if_neg hc, if_neg hc]
    exact h'

theorem modify {f : σ → σ} {g : τ → τ} (h : ∀ s t, R s t → S (f s) (g t)) :
    Agree C E R S (modify f) (modify g) := fun s t hR => .ok (h s t hR)

theorem mono {R' S' : σ → τ → Prop} (h : Agree C E R S x y) (hR : ∀ s t, R' s t → R s t)
    (hS : ∀ s t, S s t → S' s t) : Agree C E R' S' x y := by
  intro s t hs
  have hxy := h s t (hR s t hs)
  generalize x s = r, y t = r' at hxy
  cases hxy with
  | ok h => exact .ok (hS _ _ h)
  | error hC h => exact .error hC h

/-- A computation agrees with itself on what it preserves. -/
theorem self [Std.Refl C] {p q : σ → Prop} (h : ∀ s a s', p s → x s = .ok a s' → q s') :
    Agree C (fun _ _ => True) (fun s t => s = t ∧ p t) (fun s t => s = t ∧ q t) x x := by
  rintro s _ ⟨rfl, hs⟩
  cases hx : x s with
  | ok a s' => exact .ok ⟨rfl, h s a s' hs hx⟩
  | error e s' => exact .error (Std.Refl.refl e) trivial

end Agree
end Computations

/-- Streams that are related by `R` answer alike, and errors at the places where they stand are related by `C`. They are
related by `P` when the next byte has been looked at, and by `E` after an error. -/
structure Matching [ByteStream σ] [ByteStream τ] (C : StreamError → StreamError → Prop) (E R P : σ → τ → Prop) :
    Prop where
  looked : ∀ s t, P s t → R s t
  failed : ∀ s t, R s t → E s t
  place : ∀ s t (e : Position → StreamError), R s t → C (e (ByteStream.position s)) (e (ByteStream.position t))
  unread : ∀ s t, R s t → ByteStream.unread s = ByteStream.unread t
  peek : Agree C E R P ByteStream.peek ByteStream.peek
  pass : ∀ s t, P s t → R (ByteStream.pass s) (ByteStream.pass t)
  unread_pass : ∀ s t b t', R s t → ByteStream.peek t = .ok (some b) t' →
    ByteStream.unread (ByteStream.pass t') < ByteStream.unread t

namespace ByteStream
variable [ByteStream σ] [ByteStream τ] {C : StreamError → StreamError → Prop} {E R P S : σ → τ → Prop}
  (h : Matching C E R P)
include h

private theorem agree_passWhileFrom (q : UInt8 → Bool) (fuel : Nat) (passed : List UInt8) :
    Agree C E (fun s t => R s t ∧ unread t < fuel) P (passWhileFrom (σ := σ) q fuel passed)
      (passWhileFrom (σ := τ) q fuel passed) := by
  induction fuel generalizing passed with
  | zero => exact fun _ _ hR => absurd hR.2 (Nat.not_lt_zero _)
  | succ fuel ih =>
    rintro s t ⟨hR, hfuel⟩
    rw [passWhileFrom, passWhileFrom]
    refine (h.peek s t hR).bind fun next s' t' hnext hP => ?_
    cases next with
    | none => exact .ok hP
    | some b =>
      have hless := h.unread_pass s t b t' hR hnext
      dsimp only
      split
      · exact ih (b :: passed) (pass s') (pass t') ⟨h.pass s' t' hP, by omega⟩
      · exact .ok hP

private theorem agree_passWhile (q : UInt8 → Bool) :
    Agree C E R P (passWhile (σ := σ) q) (passWhile (σ := τ) q) := by
  intro s t hR
  change SameResult C E P (passWhileFrom q (unread s + 1) [] s) (passWhileFrom q (unread t + 1) [] t)
  rw [h.unread s t hR]
  exact agree_passWhileFrom h q _ [] s t ⟨hR, Nat.lt_succ_self _⟩

theorem agree_skipBlanks : Agree C E R P (skipBlanks (σ := σ)) (skipBlanks (σ := τ)) :=
  (agree_passWhile h _).map _

theorem agree_skipLine (hpass : ∀ s t, P s t → S (pass s) (pass t)) :
    Agree C E R S (skipLine (σ := σ)) (skipLine (σ := τ)) :=
  ((agree_passWhile h _).map _).bind fun _ => .modify hpass

theorem agree_restOfLine : Agree C E R P (restOfLine (σ := σ)) (restOfLine (σ := τ)) :=
  (agree_passWhile h _).bind fun _ => .pure _

theorem agree_token : Agree C E R P (token (σ := σ)) (token (σ := τ)) := by
  refine (agree_skipBlanks h).bind fun _ => .bind_get fun s t hP => ?_
  have hplace := h.place s t .missingToken (h.looked s t hP)
  refine ((agree_passWhile h _).mono h.looked fun _ _ hP => hP).bind fun bytes => ?_
  dsimp only
  split
  · exact Agree.throw (fun s t hP => h.failed s t (h.looked s t hP)) hplace
  · exact Agree.pure _

theorem agree_integer : Agree C E R P (integer (σ := σ)) (integer (σ := τ)) := by
  refine (agree_token h).bind fun text => ?_
  cases integer? text with
  | some n => exact Agree.pure _
  | none =>
    refine .bind_get fun s t hP => ?_
    have hplace := h.place s t (fun p => .notAnInteger ⟨p.line, p.column - Text.Utf8.size text⟩ text)
      (h.looked s t hP)
    exact Agree.throw (fun s t hP => h.failed s t (h.looked s t hP)) hplace

end ByteStream

/-- The bytes of a stream with a buffer of this size, in the buffer and beyond, are those of the plain one, and
reads do not fail. -/
structure Buffers (size : Nat) (b : BufferedStream) (p : PlainStream) : Prop where
  capacity : b.buffer.size = size
  rest : p.rest = b.pending ++ b.source.content
  position : p.position = b.position
  ending : b.source.ending = .endOfInput

/-- Moreover the next byte is in the buffer. -/
structure Peeked (size : Nat) (b : BufferedStream) (p : PlainStream) : Prop extends Buffers size b p where
  pending : b.pending = [] → p.rest = []

namespace BufferedStream
variable {size : Nat} {b : BufferedStream} {p : PlainStream}

private theorem buffers_empty {buffer : Array UInt8} (hsize : buffer.size = size) (hpos : 0 < buffer.size)
    {source : Source} (hending : source.ending = .endOfInput) :
    Buffers size { buffer, buffer_pos := hpos, source } ⟨source.content, {}⟩ := by
  refine ⟨hsize, ?_, rfl, hending⟩
  rw [pending_eq, available, Nat.sub_self, List.take_zero, List.nil_append]

theorem exists_ofSource (hpos : 0 < size) {source : Source} (hending : source.ending = .endOfInput) :
    ∃ b, ofSource size source = .ok b ∧ Buffers size b ⟨source.content, {}⟩ :=
  ⟨_, dif_pos hpos, buffers_empty Array.size_replicate _ hending⟩

theorem buffers_ofSourceUsual {source : Source} (hending : source.ending = .endOfInput) :
    Buffers usualCapacity (ofSourceUsual source) ⟨source.content, {}⟩ :=
  buffers_empty Array.size_replicate _ hending

/-- Loading does not lose bytes. When it finds none, there is no room for them or there are none. -/
private theorem load_spec (any : Bool) (h : Buffers size b p) : ∃ found b', b.load any = .ok found b' ∧
    Buffers size b' p ∧ b'.start = b.start ∧ (any = true → found = true) ∧
    (found = false → b'.pending = b.pending ∧ (b'.stop = b'.buffer.size ∨ b'.source.content = [])) := by
  induction b, any using load.induct with
  | case1 b any hfull => exact ⟨any, b, load_of_full hfull, h, rfl, id, fun _ => ⟨rfl, .inl hfull⟩⟩
  | case2 b any hroom source hread ih =>
    obtain ⟨hcontent, hending, -⟩ := Source.read_eq_interrupted hread
    rw [load_of_interrupted hroom hread]
    exact ih ⟨h.capacity, hcontent ▸ h.rest, h.position, hending.trans h.ending⟩
  | case3 b any hroom source hread =>
    cases h.ending.symm.trans (Source.read_eq_failed hread).2
  | case4 b any hroom source hread =>
    obtain ⟨hcontent, -, hending, -, hend⟩ := Source.read_eq_bytes hread
    have hsize := b.stop_le
    rw [List.nil_append] at hcontent
    refine ⟨any, { b with source }, load_of_end hroom hread, ?_, rfl, id, fun _ => ⟨rfl, .inr ?_⟩⟩
    · exact ⟨h.capacity, hcontent ▸ h.rest, h.position, hending.trans h.ending⟩
    · exact hend rfl (by omega)
  | case5 b any hroom c bytes source hread ih =>
    obtain ⟨hcontent, hlength, hending, -⟩ := Source.read_eq_bytes hread
    obtain ⟨found, b', hload, hb', hstart, hfound, hnone⟩ :=
      ih ⟨(size_overwrite _ _ _).trans h.capacity, by
        rw [h.rest, ← hcontent, ← List.append_assoc]
        exact congrArg (· ++ source.content) (b.pending_append hlength).symm, h.position, hending.trans h.ending⟩
    refine ⟨found, b', (load_of_bytes hroom hread).trans hload, hb', hstart, fun _ => hfound rfl, fun hfalse => ?_⟩
    exact absurd (hfound rfl) (by rw [hfalse]; exact Bool.false_ne_true)

private theorem refill_spec (h : Buffers size b p) : ∃ found b', b.refill = .ok found b' ∧ Buffers size b' p ∧
    (found = false → b'.pending = b.pending ∧ (b'.available = size ∨ b'.source.content = [])) := by
  have hcompact : Buffers size b.compact p :=
    ⟨b.size_compact.trans h.capacity, by rw [b.pending_compact, b.source_compact]; exact h.rest,
      h.position.trans b.position_compact.symm, b.source_compact ▸ h.ending⟩
  obtain ⟨found, b', hload, hb', hstart, -, hnone⟩ := load_spec false hcompact
  refine ⟨found, b', hload, hb', fun hfalse => ?_⟩
  obtain ⟨hpending, hend⟩ := hnone hfalse
  refine ⟨hpending.trans b.pending_compact, hend.imp_left fun hstop => ?_⟩
  rw [available, hstart, start_compact, hstop]
  exact hb'.capacity

/-- Filling the buffer does not lose bytes, and only fails to have enough at the end. -/
theorem fill_spec {count : Nat} (hc : count ≤ size) (h : Buffers size b p) :
    ∃ b', fill count b = .ok (decide (count ≤ p.rest.length)) b' ∧ Buffers size b' p ∧
      (count ≤ b'.pending.length ∨ b'.pending = p.rest) := by
  induction b using fill.induct count with
  | case1 b hle =>
    have hrest : count ≤ p.rest.length := by
      rw [h.rest, List.length_append, length_pending]
      omega
    exact ⟨b, by rw [fill_of_le hle, decide_eq_true hrest], h, .inl (by rwa [length_pending])⟩
  | case2 b hle b₁ hrefill ih =>
    obtain ⟨found, b₂, hrefill', hb₂, -⟩ := refill_spec h
    cases hrefill.symm.trans hrefill'
    rw [fill_of_refill hle hrefill]
    exact ih hb₂
  | case3 b hle b₁ hrefill =>
    obtain ⟨found, b₂, hrefill', hb₂, hnone⟩ := refill_spec h
    cases hrefill.symm.trans hrefill'
    obtain ⟨hpending, hend⟩ := hnone rfl
    have havailable : b₁.available = b.available := by rw [← length_pending, ← length_pending, hpending]
    have hcontent : b₁.source.content = [] := hend.resolve_left (by omega)
    have hrest : p.rest = b₁.pending := by rw [hb₂.rest, hcontent, List.append_nil]
    have hshort : ¬ count ≤ p.rest.length := by rwa [hrest, length_pending, havailable]
    exact ⟨b₁, by rw [fill_of_refill_false hle hrefill, decide_eq_false hshort], hb₂, .inr hrest.symm⟩
  | case4 b hle e b₁ hrefill =>
    obtain ⟨found, b₂, hrefill', -⟩ := refill_spec h
    cases hrefill.symm.trans hrefill'

private theorem buffers_pass (h : Peeked size b p) : Buffers size b.pass p.pass := by
  obtain ⟨⟨hcapacity, hrest, hposition, hending⟩, hpending⟩ := h
  obtain ⟨rest, position⟩ := p
  dsimp only at hrest hposition hpending
  cases hb : b.pending with
  | nil =>
    cases hpending hb
    rw [pass_of_nil hb]
    exact ⟨hcapacity, hrest, hposition, hending⟩
  | cons c cs =>
    obtain ⟨hpass, hpassed, hsize, hsource⟩ := pass_of_cons hb
    rw [hb] at hrest
    subst hrest hposition
    exact ⟨hsize.trans hcapacity, by rw [hpass, hsource]; rfl, hpassed.symm, hsource ▸ hending⟩

private theorem agree_peek (hpos : 0 < size) :
    Agree Eq (Buffers size) (Buffers size) (Peeked size) BufferedStream.peek PlainStream.peek := by
  intro b p h
  obtain ⟨b', hfill, hb, hpending⟩ := fill_spec hpos h
  have hpeek : BufferedStream.peek b = (if 1 ≤ p.rest.length then .ok b'.buffer[b'.start]? b' else .ok none b') := by
    change EStateM.bind (fill 1) _ b = _
    unfold EStateM.bind
    rw [hfill]
    by_cases hlength : 1 ≤ p.rest.length <;> simp only [hlength, decide_true, decide_false] <;> rfl
  rw [hpeek, PlainStream.peek]
  cases hrest : p.rest with
  | nil =>
    refine .ok ⟨hb, fun _ => hrest⟩
  | cons c cs =>
    have hne : b'.pending ≠ [] := by
      intro hnil
      rw [hnil, hrest] at hpending
      simp at hpending
    have hhead : b'.pending.head? = some c := by
      have happend := hb.rest
      obtain ⟨d, ds, hd⟩ := List.exists_cons_of_ne_nil hne
      rw [hrest, hd] at happend
      rw [hd, (List.cons.inj happend).1]
      rfl
    rw [if_pos (by simp), getElem?_start _ hne, hhead]
    exact .ok ⟨hb, fun hnil => absurd hnil hne⟩

private theorem buffers_foldl_pass {bytes : List UInt8} (h : Buffers size b p) (hbytes : bytes <+: b.pending) :
    Buffers size (bytes.foldl (fun s _ => s.pass) b) (bytes.foldl (fun s _ => s.pass) p) := by
  induction bytes generalizing b p with
  | nil => exact h
  | cons c cs ih =>
    obtain ⟨rest, hrest⟩ := hbytes
    have hpass := (pass_of_cons hrest.symm).1
    refine ih (buffers_pass ⟨h, fun hnil => ?_⟩) (hpass ▸ List.prefix_append cs rest)
    rw [← hrest] at hnil
    cases hnil

theorem passPrefix_of_fill {bytes : List UInt8} {b' : BufferedStream} {full : Bool}
    (hsize : bytes.length ≤ b.buffer.size) (hfill : fill bytes.length b = .ok full b') :
    BufferedStream.passPrefix bytes b =
      if full = true ∧ (b'.buffer.extract b'.start (b'.start + bytes.length)).toList = bytes then
        .ok true (bytes.foldl (fun s _ => s.pass) b')
      else .ok false b' := by
  unfold BufferedStream.passPrefix
  change EStateM.bind (fun s => .ok s s) _ b = _
  dsimp only [EStateM.bind]
  rw [if_neg (by omega)]
  change EStateM.bind (fill bytes.length) _ b = _
  unfold EStateM.bind
  rw [hfill]
  cases full with
  | true =>
    simp only [true_and]
    change (if (b'.buffer.extract b'.start (b'.start + bytes.length)).toList = bytes then _ else _ :
      EStateM StreamError BufferedStream Bool) b' = _
    split <;> rfl
  | false => rfl

theorem agree_passPrefix {bytes : List UInt8} (hsize : bytes.length ≤ size) :
    Agree Eq (Buffers size) (Buffers size) (Buffers size) (BufferedStream.passPrefix bytes)
      (PlainStream.passPrefix bytes) := by
  intro b p h
  obtain ⟨b', hfill, hb, hpending⟩ := fill_spec hsize h
  rw [passPrefix_of_fill (h.capacity ▸ hsize) hfill, PlainStream.passPrefix]
  by_cases hstarts : bytes <+: p.rest
  · have hprefix : bytes <+: b'.pending := by
      rcases hpending with hlen | heq
      · exact List.prefix_of_prefix_length_le (hb.rest ▸ hstarts) (List.prefix_append _ _) hlen
      · exact heq ▸ hstarts
    have hextract : (b'.buffer.extract b'.start (b'.start + bytes.length)).toList = bytes := by
      rw [extract_start _ (b'.length_pending ▸ hprefix.length_le)]
      exact (List.prefix_iff_eq_take.mp hprefix).symm
    rw [if_pos ⟨decide_eq_true hstarts.length_le, hextract⟩, if_pos (List.isPrefixOf_iff_prefix.mpr hstarts)]
    exact .ok (buffers_foldl_pass hb hprefix)
  · rw [if_neg, if_neg (mt List.isPrefixOf_iff_prefix.mp hstarts)]
    · exact .ok hb
    · rintro ⟨hfull, hextract⟩
      have hlength := of_decide_eq_true hfull
      have havailable : bytes.length ≤ b'.available := by
        rw [← length_pending]
        rcases hpending with hlen | heq
        · exact hlen
        · rwa [heq]
      rw [extract_start _ havailable] at hextract
      refine hstarts ((?_ : bytes <+: b'.pending).trans (hb.rest ▸ List.prefix_append _ _))
      rw [← hextract]
      exact List.take_prefix _ _

/-- The buffered instance and the plain one. -/
theorem matching (hpos : 0 < size) : Matching Eq (Buffers size) (Buffers size) (Peeked size) where
  looked _ _ h := h.toBuffers
  failed _ _ h := h
  place _ _ e h := congrArg e h.position.symm
  unread b p h := by
    change b.available + b.source.content.length = p.rest.length
    rw [h.rest, List.length_append, length_pending]
  peek := agree_peek hpos
  pass _ _ := buffers_pass
  unread_pass b p c p' _ h := by
    obtain ⟨rest, position⟩ := p
    cases rest with
    | nil => cases h
    | cons c cs =>
      cases h
      exact Nat.lt_succ_self _

end BufferedStream
end WeightedCnf

import Mathlib.Algebra.Group.Nat.Defs
import Mathlib.Data.List.Induction
import WeightedCnf.Proofs.Utf8

/-! What decoding keeps of bytes that need not be UTF-8: there are no more characters than bytes, and an ASCII
character comes from its own byte. -/
namespace WeightedCnf.Text.Utf8

/-- What the missing bytes can complete is a character above the ASCII range. -/
structure Pending.IsSound (p : Pending) : Prop where
  missing : 1 ≤ p.missing ∧ p.missing ≤ 3
  low : 128 ≤ p.low.toNat
  above : 128 ≤ (p.value * 64 + (p.low.toNat - 128)) * 64 ^ (p.missing - 1)
  scalar : (p.value * 64 + (p.high.toNat - 128) + 1) * 64 ^ (p.missing - 1) ≤ 0xd800 ∨
    0xe000 ≤ (p.value * 64 + (p.low.toNat - 128)) * 64 ^ (p.missing - 1) ∧
      (p.value * 64 + (p.high.toNat - 128) + 1) * 64 ^ (p.missing - 1) ≤ 0x110000

private theorem Pending.isSound_ofLead? {b : UInt8} {p : Pending} (h : ofLead? b = some p) :
    p.IsSound ∧ 128 ≤ b.toNat := by
  unfold ofLead? at h
  dsimp only at h
  split_ifs at h
  all_goals
    obtain rfl := Option.some.inj h
    refine ⟨⟨?_, ?_, ?_, ?_⟩, by omega⟩
    all_goals dsimp only [UInt8.reduceToNat, Nat.reduceSub, Nat.reducePow]
    all_goals omega

private theorem Pending.IsSound.toNat_last {p : Pending} (h : p.IsSound) {b : UInt8} (hlow : p.low ≤ b)
    (hhigh : b ≤ p.high) (hm : p.missing ≤ 1) :
    128 ≤ (Char.ofNat (p.value * 64 + (b.toNat - 128))).toNat := by
  obtain ⟨hmissing, hlow128, habove, hscalar⟩ := h
  rw [UInt8.le_iff_toNat_le] at hlow hhigh
  have hone : p.missing - 1 = 0 := by omega
  rw [hone, Nat.pow_zero, Nat.mul_one] at habove hscalar
  rw [Nat.mul_one] at hscalar
  have hvalid : (p.value * 64 + (b.toNat - 128)).isValidChar := by
    unfold Nat.isValidChar
    omega
  have hofNat : (Char.ofNat (p.value * 64 + (b.toNat - 128))).toNat = p.value * 64 + (b.toNat - 128) := by
    rw [Char.ofNat, dif_pos hvalid]
    rfl
  omega

private theorem Pending.IsSound.more {p : Pending} (h : p.IsSound) {b : UInt8} (hlow : p.low ≤ b)
    (hhigh : b ≤ p.high) (hm : ¬ p.missing ≤ 1) :
    IsSound ⟨p.value * 64 + (b.toNat - 128), p.missing - 1, 0x80, 0xbf⟩ := by
  obtain ⟨hmissing, -, habove, hscalar⟩ := h
  rw [UInt8.le_iff_toNat_le] at hlow hhigh
  have hleast : p.value * 64 + (p.low.toNat - 128) ≤ p.value * 64 + (b.toNat - 128) := by omega
  have hlargest : p.value * 64 + (b.toNat - 128) < p.value * 64 + (p.high.toNat - 128) + 1 := by omega
  generalize p.value * 64 + (p.low.toNat - 128) = least, p.value * 64 + (b.toNat - 128) = value,
    p.value * 64 + (p.high.toNat - 128) + 1 = largest at *
  have hmissing' : p.missing = 2 ∨ p.missing = 3 := by omega
  clear hmissing hm hlow hhigh
  rcases hmissing' with htwo | hthree
  · rw [htwo] at habove hscalar ⊢
    refine ⟨?_, ?_, ?_, ?_⟩
    all_goals dsimp only [UInt8.reduceToNat, Nat.reduceSub, Nat.reducePow] at habove hscalar ⊢
    all_goals omega
  · rw [hthree] at habove hscalar ⊢
    refine ⟨?_, ?_, ?_, ?_⟩
    all_goals dsimp only [UInt8.reduceToNat, Nat.reduceSub, Nat.reducePow] at habove hscalar ⊢
    all_goals omega

namespace Decoder

/-- The state of the decoder after these bytes. -/
structure Decodes (bytes : List UInt8) (d : Decoder) : Prop where
  length : d.decoded.length + d.pending.toList.length ≤ bytes.length
  mem : ∀ c ∈ d.decoded, c.toNat < 128 → ∃ b ∈ bytes, b.toNat = c.toNat
  sound : ∀ p ∈ d.pending, p.IsSound
  first : ∀ b ∈ bytes.head?, d.decoded = [] ∧ d.pending.isSome ∧ 128 ≤ b.toNat ∨
    ∃ c ∈ d.decoded.getLast?, StandsFor c b

namespace Decodes
variable {bytes : List UInt8} {decoded : List Char} {p : Pending} {b : UInt8} {c : Char}

private theorem push (h : Decodes bytes ⟨decoded, none⟩) (hc : StandsFor c b) :
    Decodes (bytes ++ [b]) ⟨c :: decoded, none⟩ where
  length := by
    have hlength := h.length
    simp only [List.length_cons, List.length_append, Option.toList_none, List.length_nil] at hlength ⊢
    omega
  mem c' hc' hascii := by
    rcases List.mem_cons.mp hc' with rfl | hc'
    · exact ⟨b, by simp, by rcases hc with hc | hc <;> omega⟩
    · obtain ⟨b', hb', heq⟩ := h.mem c' hc' hascii
      exact ⟨b', List.mem_append_left _ hb', heq⟩
  sound _ hp := nomatch hp
  first b' hb' := by
    cases bytes with
    | nil =>
      cases hb'
      have hnil : decoded = [] := List.eq_nil_of_length_eq_zero (Nat.eq_zero_of_le_zero h.length)
      subst hnil
      exact .inr ⟨c, rfl, hc⟩
    | cons _ bytes =>
      cases hb'
      rcases h.first b' rfl with ⟨-, hp, -⟩ | ⟨c', hc', hstands⟩
      · cases hp
      · refine .inr ⟨c', ?_, hstands⟩
        cases decoded with
        | nil => cases hc'
        | cons c'' cs => rwa [List.getLast?_cons_cons]

private theorem lead (h : Decodes bytes ⟨decoded, none⟩) (hp : p.IsSound) (hb : 128 ≤ b.toNat) :
    Decodes (bytes ++ [b]) ⟨decoded, some p⟩ where
  length := by
    have hlength := h.length
    simp only [List.length_append, List.length_cons, Option.toList_some, Option.toList_none,
      List.length_nil] at hlength ⊢
    omega
  mem c hc hascii := by
    obtain ⟨b', hb', heq⟩ := h.mem c hc hascii
    exact ⟨b', List.mem_append_left _ hb', heq⟩
  sound q hq := by
    cases hq
    exact hp
  first b' hb' := by
    cases bytes with
    | nil =>
      cases hb'
      exact .inl ⟨List.eq_nil_of_length_eq_zero (Nat.eq_zero_of_le_zero h.length), rfl, hb⟩
    | cons _ bytes =>
      cases hb'
      rcases h.first b' rfl with ⟨-, hnone, -⟩ | hlast
      · cases hnone
      · exact .inr hlast

private theorem complete (h : Decodes bytes ⟨decoded, some p⟩) (hc : 128 ≤ c.toNat) :
    Decodes bytes ⟨c :: decoded, none⟩ where
  length := h.length
  mem c' hc' hascii := by
    rcases List.mem_cons.mp hc' with rfl | hc'
    · exact absurd hascii (Nat.not_lt.mpr hc)
    · exact h.mem c' hc' hascii
  sound _ hq := nomatch hq
  first b' hb' := by
    rcases h.first b' hb' with ⟨hnil, -, hb⟩ | ⟨c', hc', hstands⟩
    · cases hnil
      exact .inr ⟨c, rfl, .inr ⟨hc, hb⟩⟩
    · refine .inr ⟨c', ?_, hstands⟩
      cases decoded with
      | nil => cases hc'
      | cons c'' cs => rwa [List.getLast?_cons_cons]

private theorem more {q : Pending} (h : Decodes bytes ⟨decoded, some p⟩) (hq : q.IsSound) :
    Decodes bytes ⟨decoded, some q⟩ where
  length := h.length
  mem := h.mem
  sound q' hq' := by
    cases hq'
    exact hq
  first := h.first

/-- A byte that does not change what the first one and the ASCII characters stand for. -/
private theorem append {d : Decoder} (h : Decodes bytes d) (hne : bytes ≠ []) (b : UInt8) :
    Decodes (bytes ++ [b]) d where
  length := by
    rw [List.length_append]
    exact Nat.le_add_right_of_le h.length
  mem c hc hascii := by
    obtain ⟨b', hb', heq⟩ := h.mem c hc hascii
    exact ⟨b', List.mem_append_left _ hb', heq⟩
  sound := h.sound
  first b' hb' := by
    obtain ⟨b₁, bytes', rfl⟩ := List.exists_cons_of_ne_nil hne
    exact h.first b' hb'

private theorem ne_nil (h : Decodes bytes ⟨decoded, some p⟩) : bytes ≠ [] := by
  rintro rfl
  have hlength := h.length
  simp at hlength

private theorem start (h : Decodes bytes ⟨decoded, none⟩) (b : UInt8) : Decodes (bytes ++ [b]) (start decoded b) := by
  unfold Decoder.start
  split
  · rename_i hb
    rw [UInt8.lt_iff_toNat_lt] at hb
    refine h.push (.inl ?_)
    have hvalid : b.toNat.isValidChar := .inl (Nat.lt_trans hb (by decide))
    rw [Char.ofNat, dif_pos hvalid]
    rfl
  · rename_i hb
    rw [UInt8.lt_iff_toNat_lt, Nat.not_lt] at hb
    cases hlead : Pending.ofLead? b with
    | none => exact h.push (.inr ⟨by decide, hb⟩)
    | some p => exact h.lead (Pending.isSound_ofLead? hlead).1 hb

private theorem feed {d : Decoder} (h : Decodes bytes d) (b : UInt8) : Decodes (bytes ++ [b]) (d.feed b) := by
  obtain ⟨decoded, pending⟩ := d
  cases pending with
  | none => exact h.start b
  | some p =>
    have hp := h.sound p rfl
    unfold Decoder.feed
    dsimp only
    split
    · rename_i hrange
      split
      · rename_i hm
        exact (h.complete (hp.toNat_last hrange.1 hrange.2 hm)).append h.ne_nil b
      · rename_i hm
        exact (h.more (hp.more hrange.1 hrange.2 hm)).append h.ne_nil b
    · exact (h.complete (c := replacement) (by decide)).start b

private theorem run (bytes : List UInt8) : Decodes bytes (bytes.foldl Decoder.feed {}) := by
  induction bytes using List.reverseRecOn with
  | nil => exact ⟨Nat.le_refl _, fun _ hc => (nomatch hc), fun _ hp => (nomatch hp), fun _ hb => (nomatch hb)⟩
  | append_singleton bytes b ih =>
    rw [List.foldl_append]
    exact ih.feed b

private theorem decode_eq (bytes : List UInt8) : Decodes bytes ⟨(decode bytes).reverse, none⟩ := by
  have h := run bytes
  rw [decode]
  generalize bytes.foldl Decoder.feed {} = d at h
  obtain ⟨decoded, pending⟩ := d
  cases pending with
  | none =>
    rw [Decoder.finish, List.reverse_reverse]
    exact h
  | some p =>
    rw [Decoder.finish, List.reverse_reverse]
    exact h.complete (by decide)

end Decodes
end Decoder
open Decoder

theorem length_decode_le (bytes : List UInt8) : (decode bytes).length ≤ bytes.length := by
  have h := (Decodes.decode_eq bytes).length
  rwa [List.length_reverse] at h

theorem mem_of_mem_decode {bytes : List UInt8} {c : Char} (hc : c ∈ decode bytes) (hascii : c.toNat < 128) :
    ∃ b ∈ bytes, b.toNat = c.toNat :=
  (Decodes.decode_eq bytes).mem c (List.mem_reverse.mpr hc) hascii

/-- The first character of a text tells what its first byte is, as far as this is ASCII. -/
theorem decode_cons (b : UInt8) (bytes : List UInt8) :
    ∃ c cs, decode (b :: bytes) = c :: cs ∧ StandsFor c b := by
  rcases (Decodes.decode_eq (b :: bytes)).first b rfl with ⟨-, hnone, -⟩ | ⟨c, hc, hstands⟩
  · cases hnone
  · rw [List.getLast?_reverse] at hc
    obtain ⟨cs, hcs⟩ := List.head?_eq_some_iff.mp hc
    exact ⟨c, cs, hcs, hstands⟩

end WeightedCnf.Text.Utf8

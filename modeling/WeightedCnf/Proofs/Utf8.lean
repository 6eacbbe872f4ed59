import Mathlib.Data.List.Basic
import WeightedCnf.Text.Blank
import WeightedCnf.Text.Utf8

/-! Encoding and decoding UTF-8. What is encoded is decoded again, and below 128 bytes and
characters are the same. -/
namespace WeightedCnf.Text.Utf8

theorem encode_cons (c : Char) (cs : List Char) : encode (c :: cs) = String.utf8EncodeChar c ++ encode cs := rfl

theorem encode_append (cs ds : List Char) : encode (cs ++ ds) = encode cs ++ encode ds :=
  List.flatMap_append

theorem utf8EncodeChar_of_ascii {c : Char} (h : c.toNat < 128) :
    String.utf8EncodeChar c = [UInt8.ofNat c.toNat] :=
  if_pos (Nat.le_of_lt_succ h)

/-- Only the encoding of an ASCII character has a byte below 128. -/
theorem mem_utf8EncodeChar {c : Char} {b : UInt8} (hb : b.toNat < 128) :
    b ∈ String.utf8EncodeChar c ↔ c.toNat = b.toNat := by
  have hv : c.toNat = c.val.toNat := rfl
  rw [String.utf8EncodeChar]
  split_ifs with h₁ h₂ h₃
  · rw [List.mem_singleton, ← UInt8.toNat_inj, UInt8.toNat_ofNat', hv]
    omega
  all_goals
    simp only [List.mem_cons, ← UInt8.toNat_inj, UInt8.toNat_ofNat', List.not_mem_nil, or_false, hv]
    omega

theorem mem_encode {cs : List Char} {b : UInt8} (hb : b.toNat < 128) :
    b ∈ encode cs ↔ ∃ c ∈ cs, c.toNat = b.toNat := by
  rw [encode, List.mem_flatMap]
  exact exists_congr fun c => and_congr_right fun _ => mem_utf8EncodeChar hb

/-- A character stands for a byte: it is this byte, or both are beyond the ASCII range. -/
def StandsFor (c : Char) (b : UInt8) : Prop :=
  c.toNat = b.toNat ∨ 128 ≤ c.toNat ∧ 128 ≤ b.toNat

namespace StandsFor
variable {c : Char} {b : UInt8}

theorem eq_iff (h : StandsFor c b) {a : Char} (ha : a.toNat < 128) : b = UInt8.ofNat a.toNat ↔ c = a := by
  rw [← UInt8.toNat_inj, UInt8.toNat_ofNat', ← Char.toNat_inj, Nat.mod_eq_of_lt (by omega)]
  rcases h with h | h <;> omega

theorem isBlankByte (h : StandsFor c b) : isBlankByte b = isAsciiBlank c := by
  have hspace := h.eq_iff (a := ' ') (by decide)
  have htab := h.eq_iff (a := '\t') (by decide)
  have hnewline := h.eq_iff (a := '\n') (by decide)
  have hfeed := h.eq_iff (a := '\x0c') (by decide)
  have hreturn := h.eq_iff (a := '\r') (by decide)
  rw [Bool.eq_iff_iff]
  simp only [Text.isBlankByte, isAsciiBlank, Bool.or_eq_true, beq_iff_eq, ← hspace, ← htab, ← hnewline,
    ← hfeed, ← hreturn]
  exact Iff.rfl

end StandsFor

/-- The first byte of a text tells what its first character is, as far as this is ASCII. -/
theorem encode_cons_standsFor (c : Char) (cs : List Char) :
    ∃ b bs, encode (c :: cs) = b :: (bs ++ encode cs) ∧ String.utf8EncodeChar c = b :: bs ∧ StandsFor c b := by
  cases hc : String.utf8EncodeChar c with
  | nil => exact absurd hc String.utf8EncodeChar_ne_nil
  | cons b bs =>
    refine ⟨b, bs, by rw [encode_cons, hc, List.cons_append], rfl, ?_⟩
    by_cases hb : b.toNat < 128
    · exact .inl ((mem_utf8EncodeChar hb).mp (hc ▸ List.mem_cons_self))
    · by_cases hascii : c.toNat < 128
      · rw [utf8EncodeChar_of_ascii hascii, List.cons.injEq] at hc
        rw [← hc.1, UInt8.toNat_ofNat'] at hb
        omega
      · exact .inr ⟨Nat.not_lt.mp hascii, Nat.not_lt.mp hb⟩

private theorem feed_ascii (decoded : List Char) {n : Nat} (h : n < 128) :
    Decoder.feed ⟨decoded, none⟩ (UInt8.ofNat n) = ⟨Char.ofNat n :: decoded, none⟩ := by
  have hn : (UInt8.ofNat n).toNat = n := by rw [UInt8.toNat_ofNat']; omega
  rw [Decoder.feed, Decoder.start, if_pos (UInt8.lt_iff_toNat_lt.mpr (by rw [hn]; exact h)), hn]

private theorem feed_lead (decoded : List Char) {n : Nat} (h : 128 ≤ n) (h' : n < 256) {p : Pending}
    (hp : Pending.ofLead? (UInt8.ofNat n) = some p) :
    Decoder.feed ⟨decoded, none⟩ (UInt8.ofNat n) = ⟨decoded, some p⟩ := by
  have hn : (UInt8.ofNat n).toNat = n := by rw [UInt8.toNat_ofNat']; omega
  have hlt : ¬ UInt8.ofNat n < 0x80 := by
    rw [UInt8.lt_iff_toNat_lt, hn]
    exact Nat.not_lt.mpr h
  rw [Decoder.feed, Decoder.start, if_neg hlt, hp]

private theorem feed_continuation (decoded : List Char) (p : Pending) {n : Nat} (h : p.low.toNat ≤ n)
    (h' : n ≤ p.high.toNat) :
    Decoder.feed ⟨decoded, some p⟩ (UInt8.ofNat n) =
      if p.missing ≤ 1 then ⟨Char.ofNat (p.value * 64 + (n - 0x80)) :: decoded, none⟩
      else ⟨decoded, some ⟨p.value * 64 + (n - 0x80), p.missing - 1, 0x80, 0xbf⟩⟩ := by
  have hhigh := p.high.toNat_lt
  have hn : (UInt8.ofNat n).toNat = n := by rw [UInt8.toNat_ofNat']; omega
  have hmem : p.low ≤ UInt8.ofNat n ∧ UInt8.ofNat n ≤ p.high := by
    rw [UInt8.le_iff_toNat_le, UInt8.le_iff_toNat_le, hn]
    exact ⟨h, h'⟩
  rw [Decoder.feed]
  simp only [hmem, and_self, if_true, hn]

private theorem feed_last (decoded : List Char) (p : Pending) {n : Nat} (c : Char)
    (h : p.low.toNat ≤ n) (h' : n ≤ p.high.toNat) (hm : p.missing = 1)
    (hc : p.value * 64 + (n - 0x80) = c.toNat) :
    Decoder.feed ⟨decoded, some p⟩ (UInt8.ofNat n) = ⟨c :: decoded, none⟩ := by
  rw [feed_continuation decoded p h h', if_pos (by omega), hc, Char.ofNat_toNat]

private theorem feed_more (decoded : List Char) (p : Pending) (value missing : Nat) {n : Nat}
    (h : p.low.toNat ≤ n) (h' : n ≤ p.high.toNat) (hm : p.missing = missing + 1) (hpos : 0 < missing)
    (hv : p.value * 64 + (n - 0x80) = value) :
    Decoder.feed ⟨decoded, some p⟩ (UInt8.ofNat n) = ⟨decoded, some ⟨value, missing, 0x80, 0xbf⟩⟩ := by
  rw [feed_continuation decoded p h h', if_neg (by omega), hv, hm, Nat.add_sub_cancel]

private theorem ofLead?_ofNat {n : Nat} (h : n < 256) {p : Pending}
    (hp : 0xc2 ≤ n ∧ n ≤ 0xdf ∧ p = ⟨n - 0xc0, 1, 0x80, 0xbf⟩ ∨
      n = 0xe0 ∧ p = ⟨0, 2, 0xa0, 0xbf⟩ ∨ n = 0xed ∧ p = ⟨0xd, 2, 0x80, 0x9f⟩ ∨
      0xe1 ≤ n ∧ n ≤ 0xef ∧ n ≠ 0xed ∧ p = ⟨n - 0xe0, 2, 0x80, 0xbf⟩ ∨
      n = 0xf0 ∧ p = ⟨0, 3, 0x90, 0xbf⟩ ∨ 0xf1 ≤ n ∧ n ≤ 0xf3 ∧ p = ⟨n - 0xf0, 3, 0x80, 0xbf⟩ ∨
      n = 0xf4 ∧ p = ⟨4, 3, 0x80, 0x8f⟩) :
    Pending.ofLead? (UInt8.ofNat n) = some p := by
  have hn : (UInt8.ofNat n).toNat = n := by rw [UInt8.toNat_ofNat']; omega
  simp only [Pending.ofLead?, hn]
  rcases hp with ⟨_, _, rfl⟩ | ⟨_, rfl⟩ | ⟨_, rfl⟩ | ⟨_, _, _, rfl⟩ | ⟨_, rfl⟩ | ⟨_, _, rfl⟩ | ⟨_, rfl⟩
  all_goals
    split_ifs
    all_goals first | omega | rfl

/-- The bytes of a character are decoded to it: the first one says how many follow and in which range
the second one is. -/
theorem foldl_feed_utf8EncodeChar (c : Char) (decoded : List Char) :
    (String.utf8EncodeChar c).foldl Decoder.feed ⟨decoded, none⟩ = ⟨c :: decoded, none⟩ := by
  have hv : c.val.toNat = c.toNat := rfl
  have hvalid := c.valid
  simp only [UInt32.isValidChar, Nat.isValidChar, hv] at hvalid
  rw [String.utf8EncodeChar, hv]
  split_ifs with h₁ h₂ h₃
  · rw [List.foldl_cons, feed_ascii _ (by omega), Char.ofNat_toNat, List.foldl_nil]
  · have hp := ofLead?_ofNat (n := c.toNat / 64 % 32 + 192) (p := ⟨c.toNat / 64, 1, 0x80, 0xbf⟩)
      (by omega) (.inl ⟨by omega, by omega, congrArg (Pending.mk · 1 0x80 0xbf) (by omega)⟩)
    have hlast := feed_last decoded ⟨c.toNat / 64, 1, 0x80, 0xbf⟩ (n := c.toNat % 64 + 128) c
      (by simp) (by simp; omega) rfl (by dsimp only; omega)
    rw [List.foldl_cons, feed_lead _ (by omega) (by omega) hp, List.foldl_cons, hlast, List.foldl_nil]
  · have hp : ∃ low high, Pending.ofLead? (UInt8.ofNat (c.toNat / 4096 % 16 + 224)) =
        some ⟨c.toNat / 4096, 2, low, high⟩ ∧ low.toNat ≤ c.toNat / 64 % 64 + 128 ∧
          c.toNat / 64 % 64 + 128 ≤ high.toNat := by
      by_cases he : c.toNat / 4096 = 0
      · exact ⟨0xa0, 0xbf, ofLead?_ofNat (by omega) (.inr (.inl ⟨by omega, by rw [he]⟩)), by simp; omega,
          by simp; omega⟩
      · by_cases hs : c.toNat / 4096 = 13
        · exact ⟨0x80, 0x9f, ofLead?_ofNat (by omega) (.inr (.inr (.inl ⟨by omega, by rw [hs]⟩))),
            by simp, by simp; omega⟩
        · exact ⟨0x80, 0xbf, ofLead?_ofNat (by omega) (.inr (.inr (.inr (.inl
            ⟨by omega, by omega, by omega, congrArg (Pending.mk · 2 0x80 0xbf) (by omega)⟩)))), by simp, by simp; omega⟩
    obtain ⟨low, high, hp, hlow, hhigh⟩ := hp
    have hmore := feed_more decoded ⟨c.toNat / 4096, 2, low, high⟩ (c.toNat / 64) 1 hlow hhigh rfl (by omega) (by dsimp only; omega)
    have hlast := feed_last decoded ⟨c.toNat / 64, 1, 0x80, 0xbf⟩ (n := c.toNat % 64 + 128) c
      (by simp) (by simp; omega) rfl (by dsimp only; omega)
    rw [List.foldl_cons, feed_lead _ (by omega) (by omega) hp, List.foldl_cons, hmore, List.foldl_cons,
      hlast, List.foldl_nil]
  · have hp : ∃ low high, Pending.ofLead? (UInt8.ofNat (c.toNat / 262144 % 8 + 240)) =
        some ⟨c.toNat / 262144, 3, low, high⟩ ∧ low.toNat ≤ c.toNat / 4096 % 64 + 128 ∧
          c.toNat / 4096 % 64 + 128 ≤ high.toNat := by
      by_cases he : c.toNat / 262144 = 0
      · exact ⟨0x90, 0xbf, ofLead?_ofNat (by omega) (.inr (.inr (.inr (.inr (.inl
          ⟨by omega, by rw [he]⟩))))), by simp; omega, by simp; omega⟩
      · by_cases hs : c.toNat / 262144 = 4
        · exact ⟨0x80, 0x8f, ofLead?_ofNat (by omega) (.inr (.inr (.inr (.inr (.inr (.inr
            ⟨by omega, by rw [hs]⟩)))))), by simp, by simp; omega⟩
        · exact ⟨0x80, 0xbf, ofLead?_ofNat (by omega) (.inr (.inr (.inr (.inr (.inr (.inl
            ⟨by omega, by omega, congrArg (Pending.mk · 3 0x80 0xbf) (by omega)⟩)))))), by simp, by simp; omega⟩
    obtain ⟨low, high, hp, hlow, hhigh⟩ := hp
    have hmore := feed_more decoded ⟨c.toNat / 262144, 3, low, high⟩ (c.toNat / 4096) 2 hlow hhigh rfl (by omega) (by dsimp only; omega)
    have hmore' := feed_more decoded ⟨c.toNat / 4096, 2, 0x80, 0xbf⟩ (c.toNat / 64) 1
      (n := c.toNat / 64 % 64 + 128) (by simp) (by simp; omega) rfl (by omega) (by dsimp only; omega)
    have hlast := feed_last decoded ⟨c.toNat / 64, 1, 0x80, 0xbf⟩ (n := c.toNat % 64 + 128) c
      (by simp) (by simp; omega) rfl (by dsimp only; omega)
    rw [List.foldl_cons, feed_lead _ (by omega) (by omega) hp, List.foldl_cons, hmore, List.foldl_cons,
      hmore', List.foldl_cons, hlast, List.foldl_nil]

/-- Decoding is a left inverse of encoding. -/
theorem decode_encode (cs : List Char) : decode (encode cs) = cs := by
  have hfold : ∀ decoded : List Char,
      (encode cs).foldl Decoder.feed ⟨decoded, none⟩ = ⟨cs.reverse ++ decoded, none⟩ := by
    induction cs with
    | nil => exact fun _ => rfl
    | cons c cs ih =>
      intro decoded
      rw [encode_cons, List.foldl_append, foldl_feed_utf8EncodeChar, ih, List.reverse_cons,
        List.append_assoc, List.singleton_append]
  rw [decode, hfold, Decoder.finish, List.append_nil, List.reverse_reverse]

end WeightedCnf.Text.Utf8

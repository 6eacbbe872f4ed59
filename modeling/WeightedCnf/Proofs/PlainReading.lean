import Mathlib.Data.List.TakeWhile
import WeightedCnf.Stream.Plain
import WeightedCnf.Stream.Token

/-! What reading takes from the bytes of a plain stream, and what it leaves. -/
namespace WeightedCnf
open Text (newline isBlankByte)

def Position.past (p : Position) (bytes : List UInt8) : Position :=
  bytes.foldl Position.after p

private theorem Position.past_append (p : Position) (bytes more : List UInt8) :
    p.past (bytes ++ more) = (p.past bytes).past more :=
  List.foldl_append

theorem PlainStream.rest_pass (s : PlainStream) : s.pass.rest = s.rest.tail := by
  obtain ⟨rest, position⟩ := s
  cases rest <;> rfl

private theorem foldl_pass (bytes rest : List UInt8) (position : Position) :
    bytes.foldl (fun s _ => s.pass) (⟨bytes ++ rest, position⟩ : PlainStream) = ⟨rest, position.past bytes⟩ := by
  induction bytes generalizing position with
  | nil => rfl
  | cons b bytes ih => exact ih (position.after b)

namespace ByteStream
variable {rest : List UInt8} {position : Position}

private theorem passWhileFrom_eq (q : UInt8 → Bool) {fuel : Nat} (passed : List UInt8) (s : PlainStream)
    (h : s.rest.length < fuel) : passWhileFrom q fuel passed s =
      .ok (passed.reverse ++ s.rest.takeWhile q) ⟨s.rest.dropWhile q, s.position.past (s.rest.takeWhile q)⟩ := by
  induction fuel generalizing passed s with
  | zero => exact absurd h (Nat.not_lt_zero _)
  | succ fuel ih =>
    obtain ⟨rest, position⟩ := s
    cases rest with
    | nil =>
      rw [List.takeWhile_nil, List.append_nil]
      rfl
    | cons b bytes =>
      have hstep : passWhileFrom q (fuel + 1) passed (⟨b :: bytes, position⟩ : PlainStream) =
          if q b then passWhileFrom q fuel (b :: passed) (⟨bytes, position.after b⟩ : PlainStream)
          else .ok passed.reverse ⟨b :: bytes, position⟩ := by
        rw [passWhileFrom]
        change (if q b then _ else _ : EStateM StreamError PlainStream (List UInt8)) _ = _
        split <;> rfl
      rw [hstep, List.takeWhile_cons, List.dropWhile_cons]
      split
      · rw [ih (b :: passed) ⟨bytes, position.after b⟩ (Nat.succ_lt_succ_iff.mp h), List.reverse_cons,
          List.append_assoc, List.singleton_append]
        rfl
      · rw [List.append_nil]
        rfl

private theorem passWhile_eq (q : UInt8 → Bool) (s : PlainStream) : passWhile q s =
    .ok (s.rest.takeWhile q) ⟨s.rest.dropWhile q, s.position.past (s.rest.takeWhile q)⟩ :=
  passWhileFrom_eq q [] s (Nat.lt_succ_self _)

theorem skipBlanks_eq (s : PlainStream) : skipBlanks s =
    .ok () ⟨s.rest.dropWhile isBlankByte, s.position.past (s.rest.takeWhile isBlankByte)⟩ := by
  change EStateM.map _ (passWhile isBlankByte) s = _
  rw [EStateM.map, passWhile_eq]

theorem skipLine_eq (s : PlainStream) : skipLine s =
    .ok () ⟨(s.rest.dropWhile (· != newline)).tail,
      (s.position.past (s.rest.takeWhile (· != newline))).past ((s.rest.dropWhile (· != newline)).take 1)⟩ := by
  have hskip : skipLine s = .ok () (PlainStream.pass
      ⟨s.rest.dropWhile (· != newline), s.position.past (s.rest.takeWhile (· != newline))⟩) := by
    change EStateM.bind (EStateM.map _ (passWhile (· != newline))) _ s = _
    rw [EStateM.bind, EStateM.map, passWhile_eq]
    rfl
  rw [hskip]
  generalize s.rest.dropWhile (· != newline) = rest
  cases rest with
  | nil => rfl
  | cons b bytes => rfl

theorem restOfLine_eq (s : PlainStream) : restOfLine s =
    .ok (Text.Utf8.decode (s.rest.takeWhile (· != newline)))
      ⟨s.rest.dropWhile (· != newline), s.position.past (s.rest.takeWhile (· != newline))⟩ := by
  change EStateM.bind (passWhile (· != newline)) _ s = _
  rw [EStateM.bind, passWhile_eq]
  rfl

theorem token_eq (s : PlainStream) {blanks bytes rest : List UInt8}
    (hblanks : s.rest.takeWhile isBlankByte = blanks)
    (hbytes : (s.rest.dropWhile isBlankByte).takeWhile (!isBlankByte ·) = bytes)
    (hrest : (s.rest.dropWhile isBlankByte).dropWhile (!isBlankByte ·) = rest) :
    token s = if bytes.isEmpty
      then .error (.missingToken (s.position.past blanks)) ⟨rest, s.position.past (blanks ++ bytes)⟩
      else .ok (Text.Utf8.decode bytes) ⟨rest, s.position.past (blanks ++ bytes)⟩ := by
  have hpass := passWhile_eq (!isBlankByte ·) ⟨s.rest.dropWhile isBlankByte, s.position.past blanks⟩
  rw [hbytes, hrest, ← Position.past_append] at hpass
  change EStateM.bind skipBlanks _ s = _
  rw [EStateM.bind, skipBlanks_eq, hblanks]
  change EStateM.bind (passWhile (!isBlankByte ·)) _
    (⟨s.rest.dropWhile isBlankByte, s.position.past blanks⟩ : PlainStream) = _
  rw [EStateM.bind, hpass]
  cases bytes with
  | nil => rfl
  | cons b bytes => rfl

theorem passPrefix_of_prefix (s : PlainStream) {bytes rest : List UInt8} (h : s.rest = bytes ++ rest) :
    PlainStream.passPrefix bytes s = .ok true ⟨rest, s.position.past bytes⟩ := by
  have hprefix : bytes.isPrefixOf s.rest = true := List.isPrefixOf_iff_prefix.mpr (h ▸ List.prefix_append _ _)
  obtain ⟨_, position⟩ := s
  subst h
  rw [PlainStream.passPrefix, if_pos hprefix, foldl_pass]

theorem passPrefix_of_not_prefix (s : PlainStream) {bytes : List UInt8} (h : ¬ bytes <+: s.rest) :
    PlainStream.passPrefix bytes s = .ok false s :=
  if_neg (mt List.isPrefixOf_iff_prefix.mp h)

end ByteStream
end WeightedCnf

/-!
Where the bytes of a stream come from. A source hands out its content in reads of any size; some of them are
interrupted and have to be tried again. After the content, every read finds the end or fails.
-/

namespace WeightedCnf

/-- What happens to a read while there is content. -/
inductive Turn where
  /-- The read is interrupted and delivers nothing. -/
  | interrupted
  /-- The read delivers at most this many bytes, but at least one. -/
  | upTo (most : Nat)
deriving DecidableEq, Repr

/-- What every read meets after the content. -/
inductive Ending where
  | endOfInput
  | failure
deriving DecidableEq, Repr

/-- A source of bytes. When the turns are used up, each read delivers as much as it asks for. -/
structure Source where
  content : List UInt8
  turns : List Turn := []
  ending : Ending := .endOfInput
deriving DecidableEq, Repr

/-- What comes of a read. -/
inductive Delivery where
  /-- Nothing, and the read has to be tried again. -/
  | interrupted
  /-- Some bytes, or none at the end of the input. -/
  | bytes (delivered : List UInt8)
  | failed
deriving DecidableEq, Repr

namespace Source

/-- Hands out at most `count` bytes. -/
def deliver (s : Source) (count : Nat) : Delivery × Source :=
  if s.content.isEmpty && s.ending == .failure then (.failed, s)
  else (.bytes (s.content.take count), { s with content := s.content.drop count })

def read (s : Source) (room : Nat) : Delivery × Source :=
  match s.turns with
  | [] => s.deliver room
  | .interrupted :: turns => (.interrupted, { s with turns })
  | .upTo most :: turns => { s with turns }.deliver (min (max most 1) room)

variable {s s' : Source} {room count : Nat} {delivered : List UInt8}

theorem deliver_eq_bytes (h : s.deliver count = (.bytes delivered, s')) :
    delivered = s.content.take count ∧ s' = { s with content := s.content.drop count } := by
  unfold deliver at h
  split at h
  · cases h
  · cases h
    exact ⟨rfl, rfl⟩

theorem deliver_ne_interrupted : s.deliver count ≠ (.interrupted, s') := by
  unfold deliver
  split <;> exact nofun

theorem deliver_eq_failed (h : s.deliver count = (.failed, s')) : s.content = [] ∧ s.ending = .failure := by
  unfold deliver at h
  split at h
  · rename_i hfails
    rwa [Bool.and_eq_true, List.isEmpty_iff, beq_iff_eq] at hfails
  · cases h

/-- A read delivers the next bytes, no more than it has room for, and none only at the end. -/
theorem read_eq_bytes (h : s.read room = (.bytes delivered, s')) :
    delivered ++ s'.content = s.content ∧ delivered.length ≤ room ∧ s'.ending = s.ending ∧
      s'.turns.length ≤ s.turns.length ∧ (delivered = [] → 0 < room → s'.content = []) := by
  have htake {count : Nat} (hcount : count ≤ room) (hpos : 0 < room → 0 < count) :
      s.content.take count ++ s.content.drop count = s.content ∧ (s.content.take count).length ≤ room ∧
        (s.content.take count = [] → 0 < room → s.content.drop count = []) := by
    refine ⟨List.take_append_drop _ _, Nat.le_trans (List.length_take_le _ _) hcount, fun hnil hroom => ?_⟩
    have hzero := (List.take_eq_nil_iff.mp hnil).resolve_left (Nat.ne_of_gt (hpos hroom))
    rw [hzero, List.drop_nil]
  unfold read at h
  split at h
  · obtain ⟨rfl, rfl⟩ := deliver_eq_bytes h
    obtain ⟨happend, hlength, hnil⟩ := htake (Nat.le_refl room) id
    exact ⟨happend, hlength, rfl, Nat.le_refl _, hnil⟩
  · cases h
  · rename_i most turns hturns
    obtain ⟨rfl, rfl⟩ := deliver_eq_bytes h
    obtain ⟨happend, hlength, hnil⟩ := htake (Nat.min_le_right (max most 1) room) (by omega)
    refine ⟨happend, hlength, rfl, ?_, hnil⟩
    rw [hturns]
    exact Nat.le_succ _

theorem read_eq_interrupted (h : s.read room = (.interrupted, s')) :
    s'.content = s.content ∧ s'.ending = s.ending ∧ s'.turns.length < s.turns.length := by
  unfold read at h
  split at h
  · exact absurd h deliver_ne_interrupted
  · rename_i turns hturns
    cases h
    refine ⟨rfl, rfl, ?_⟩
    rw [hturns]
    exact Nat.lt_succ_self _
  · exact absurd h deliver_ne_interrupted

/-- Only a source that is to fail at its end does so. -/
theorem read_eq_failed (h : s.read room = (.failed, s')) : s.content = [] ∧ s.ending = .failure := by
  unfold read at h
  split at h
  · exact deliver_eq_failed h
  · cases h
  · rename_i most turns _
    exact deliver_eq_failed (s := { s with turns }) h

end Source

end WeightedCnf

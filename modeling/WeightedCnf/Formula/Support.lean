import WeightedCnf.Literal
/-!
The independent support of a formula: an ordered set of variables. The order is that of the first additions;
a second representation, the set of indices as a set of bits that grows with them, answers membership at once.
-/

namespace WeightedCnf

/-- A set of indices below a size, which can grow. -/
structure BitSet where
  size : Nat := 0
  /-- Digit `i` is one when `i` is in the set. -/
  digits : Nat := 0
  digits_lt : digits < 1 <<< size := by decide
deriving DecidableEq, Repr

namespace BitSet

def contains (s : BitSet) (i : Nat) : Bool :=
  i < s.size && s.digits.testBit i

def grow (s : BitSet) (size : Nat) : BitSet where
  size := max s.size size
  digits := s.digits
  digits_lt := by
    have hlt := s.digits_lt
    rw [Nat.one_shiftLeft] at hlt ⊢
    exact Nat.lt_of_lt_of_le hlt (Nat.pow_le_pow_right Nat.two_pos (Nat.le_max_left _ _))

def insert (s : BitSet) (i : Nat) (h : i < s.size) : BitSet where
  size := s.size
  digits := s.digits ||| 1 <<< i
  digits_lt := by
    have hlt := s.digits_lt
    rw [Nat.one_shiftLeft] at hlt
    rw [Nat.one_shiftLeft, Nat.one_shiftLeft]
    exact Nat.or_lt_two_pow hlt (Nat.pow_lt_pow_right Nat.one_lt_two h)

theorem contains_eq_testBit (s : BitSet) (i : Nat) : s.contains i = s.digits.testBit i := by
  rw [contains]
  by_cases hi : i < s.size
  · rw [decide_eq_true hi, Bool.true_and]
  · have hlt := s.digits_lt
    rw [Nat.one_shiftLeft] at hlt
    have hle := Nat.pow_le_pow_right Nat.two_pos (Nat.le_of_not_lt hi)
    rw [Nat.testBit_lt_two_pow (Nat.lt_of_lt_of_le hlt hle), Bool.and_false]

@[simp] theorem contains_empty (i : Nat) : ({} : BitSet).contains i = false := by
  rw [contains_eq_testBit, Nat.zero_testBit]

theorem lt_size_grow (s : BitSet) (i : Nat) : i < (s.grow (i + 1)).size :=
  Nat.le_max_right _ _

theorem contains_grow (s : BitSet) (size i : Nat) : (s.grow size).contains i = s.contains i := by
  rw [contains_eq_testBit, contains_eq_testBit, grow]

theorem contains_insert (s : BitSet) {i : Nat} (h : i < s.size) (k : Nat) :
    (s.insert i h).contains k = true ↔ s.contains k = true ∨ i = k := by
  rw [contains_eq_testBit, contains_eq_testBit, insert, Nat.testBit_or, Bool.or_eq_true, Nat.one_shiftLeft,
    Nat.testBit_two_pow, decide_eq_true_eq]

end BitSet

/-- An ordered set of variables. -/
structure Support where
  /-- The members, the earliest first. -/
  members : Array Variable := #[]
  /-- The indices of the members. -/
  marks : BitSet := {}
  nodup : members.toList.Nodup := by simp
  contains_marks : ∀ i, marks.contains i = true ↔ ∃ v ∈ members.toList, v.index = i := by simp
deriving DecidableEq, Repr

namespace Support

def empty : Support := {}

def contains (s : Support) (v : Variable) : Bool :=
  s.marks.contains v.index

theorem contains_iff (s : Support) (v : Variable) : s.contains v = true ↔ v ∈ s.members.toList := by
  obtain ⟨i, hi⟩ := v
  rw [contains, s.contains_marks]
  constructor
  · rintro ⟨⟨_, _⟩, hmem, rfl⟩
    exact hmem
  · exact fun hmem => ⟨_, hmem, rfl⟩

/-- Adds a variable at the end, unless it is a member already. -/
def insert (s : Support) (v : Variable) : Support :=
  if h : s.contains v then s
  else
    { members := s.members.push v
      marks := (s.marks.grow (v.index + 1)).insert v.index (s.marks.lt_size_grow v.index)
      nodup := by
        rw [contains_iff] at h
        rw [Array.toList_push, List.nodup_append]
        refine ⟨s.nodup, by simp, ?_⟩
        rintro a ha b hb rfl
        exact h (List.mem_singleton.mp hb ▸ ha)
      contains_marks := by
        intro i
        simp only [BitSet.contains_insert, BitSet.contains_grow, s.contains_marks, Array.toList_push,
          List.mem_append, List.mem_singleton, or_and_right, exists_or, exists_eq_left] }

def isEmpty (s : Support) : Bool :=
  s.members.isEmpty

def toList (s : Support) : List Variable :=
  s.members.toList

theorem mem_insert {s : Support} {u v : Variable} : v ∈ (s.insert u).toList ↔ v ∈ s.toList ∨ v = u := by
  unfold insert
  split
  · rename_i h
    rw [contains_iff] at h
    exact ⟨Or.inl, fun hv => hv.elim id fun he => he ▸ h⟩
  · simp [toList]

theorem toList_insert {s : Support} {v : Variable} (hv : ¬ s.contains v = true) :
    (s.insert v).toList = s.toList ++ [v] := by
  rw [insert, dif_neg hv]
  exact Array.toList_push

theorem isEmpty_iff {s : Support} : s.isEmpty = true ↔ s.toList = [] := by
  rw [isEmpty, toList, Array.isEmpty_iff, Array.toList_eq_nil_iff]

end Support

end WeightedCnf

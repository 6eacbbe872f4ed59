import Mathlib.Algebra.Ring.Parity
import Mathlib.Data.List.Nodup
import WeightedCnf.Count

/-! Assignments are enumerated by counting in binary: each step adds one to the number whose digits are the values, and
so all assignments are visited, each of them once. -/
namespace WeightedCnf
namespace Assignment
variable {a : Assignment} {size : Nat}

/-- The assignment whose values are the lowest digits of a number, the lowest one first. -/
def ofNat (size n : Nat) : Assignment :=
  ⟨(List.range size).map n.testBit⟩

private theorem testBits_succ (size n : Nat) :
    (List.range (size + 1)).map n.testBit = n.testBit 0 :: (List.range size).map (n / 2).testBit := by
  rw [List.range_succ_eq_map, List.map_cons, List.map_map]
  refine congrArg (List.cons _) (List.map_congr_left fun i _ => ?_)
  exact Nat.testBit_succ n i

/-- Adding one to the digits of a number, as many as there are, gives those of the next number. It does not fit when
all of these are zero again. -/
theorem increment_testBits (size n : Nat) : increment ((List.range size).map n.testBit) =
    (decide ¬ 2 ^ size ∣ n + 1, (List.range size).map (n + 1).testBit) := by
  induction size generalizing n with
  | zero => simp [increment]
  | succ size ih =>
    rw [testBits_succ, testBits_succ]
    obtain ⟨m, rfl | rfl⟩ := Nat.even_or_odd' n
    · have hdigit : (2 * m).testBit 0 = false := by simp
      have hnext : (2 * m + 1).testBit 0 = true := by simp
      have hodd : ¬ 2 ^ (size + 1) ∣ 2 * m + 1 := by
        intro h
        have htwo : 2 ∣ 2 * m + 1 := (Dvd.intro_left (2 ^ size) rfl : 2 ∣ 2 ^ (size + 1)).trans h
        omega
      rw [hdigit, hnext, increment, decide_eq_true hodd, show 2 * m / 2 = m by omega,
        show (2 * m + 1) / 2 = m by omega]
    · have hdigit : (2 * m + 1).testBit 0 = true := by simp
      have hnext : (2 * m + 1 + 1).testBit 0 = false := by
        rw [Nat.testBit_zero, show (2 * m + 1 + 1) % 2 = 0 by omega]
        rfl
      have hcarry : 2 ^ (size + 1) ∣ 2 * m + 1 + 1 ↔ 2 ^ size ∣ m + 1 := by
        rw [show 2 * m + 1 + 1 = (m + 1) * 2 by omega, pow_succ]
        exact Nat.mul_dvd_mul_iff_right (by decide)
      rw [hdigit, hnext, increment, show (2 * m + 1) / 2 = m by omega, show (2 * m + 1 + 1) / 2 = m + 1 by omega, ih,
        decide_eq_decide.mpr (not_congr hcarry.symm)]

private theorem next_ofNat (size n : Nat) : (ofNat size n).next = (decide ¬ 2 ^ size ∣ n + 1, ofNat size (n + 1)) := by
  rw [next, ofNat, increment_testBits]
  rfl

private theorem first_eq (size : Nat) : first size = ofNat size 0 := by
  have hdigit : (Nat.testBit 0 : Nat → Bool) = fun _ => false := funext Nat.zero_testBit
  rw [first, ofNat, hdigit, List.map_const', List.length_range]

private theorem toNat_ofNat (size n : Nat) : (ofNat size n).toNat = n % 2 ^ size := by
  induction size generalizing n with
  | zero => simp [ofNat, toNat, Nat.mod_one]
  | succ size ih =>
    have hrest := ih (n / 2)
    unfold ofNat toNat at hrest ⊢
    dsimp only at hrest ⊢
    rw [testBits_succ, List.foldr_cons, hrest, pow_succ', Nat.mod_mul, Nat.testBit_zero, Nat.add_comm]
    rcases Nat.mod_two_eq_zero_or_one n with h | h <;> simp [h]

private theorem toNat_lt (a : Assignment) : a.toNat < 2 ^ a.size := by
  obtain ⟨values⟩ := a
  induction values with
  | nil => exact Nat.one_pos
  | cons value values ih =>
    have hbit := Bool.toNat_le value
    have hnumber : toNat ⟨value :: values⟩ = 2 * toNat ⟨values⟩ + value.toNat := rfl
    have hsize : 2 ^ size ⟨value :: values⟩ = 2 ^ size ⟨values⟩ * 2 := pow_succ 2 _
    omega

private theorem ofNat_toNat (a : Assignment) : ofNat a.size a.toNat = a := by
  obtain ⟨values⟩ := a
  induction values with
  | nil => rfl
  | cons value values ih =>
    have hnumber : toNat ⟨value :: values⟩ = 2 * toNat ⟨values⟩ + value.toNat := rfl
    have hdigit : (2 * toNat ⟨values⟩ + value.toNat).testBit 0 = value := by
      cases value <;> simp
    have hrest : (2 * toNat ⟨values⟩ + value.toNat) / 2 = toNat ⟨values⟩ := by
      have hbit := Bool.toNat_le value
      omega
    rw [ofNat, hnumber, size, List.length_cons, testBits_succ, hdigit, hrest]
    exact congrArg (fun a : Assignment => mk (value :: a.values)) ih

def all (size : Nat) : List Assignment :=
  (List.range (2 ^ size)).map (ofNat size)

theorem mem_all : a ∈ all size ↔ a.size = size := by
  rw [all, List.mem_map]
  constructor
  · rintro ⟨n, -, rfl⟩
    rw [Assignment.size, ofNat, List.length_map, List.length_range]
  · rintro rfl
    exact ⟨a.toNat, List.mem_range.mpr a.toNat_lt, a.ofNat_toNat⟩

theorem nodup_all (size : Nat) : (all size).Nodup := by
  refine List.Nodup.map_on (fun n hn m hm h => ?_) List.nodup_range
  have hnumber := congrArg toNat h
  rwa [toNat_ofNat, toNat_ofNat, Nat.mod_eq_of_lt (List.mem_range.mp hn), Nat.mod_eq_of_lt (List.mem_range.mp hm)]
    at hnumber

variable {β : Type} (f : β → Assignment → β)

private theorem foldFrom_ofNat {count n fuel : Nat} (hcount : n + count = 2 ^ size) (hpos : 0 < count)
    (hfuel : count ≤ fuel)
    (b : β) : foldFrom f fuel (ofNat size n) b = ((List.range' n count).map (ofNat size)).foldl f b := by
  induction count generalizing n fuel b with
  | zero => cases hpos
  | succ count ih =>
    obtain ⟨fuel, rfl⟩ := Nat.exists_eq_add_one_of_ne_zero (Nat.ne_of_gt (Nat.lt_of_lt_of_le hpos hfuel))
    rw [foldFrom, next_ofNat, List.range'_succ, List.map_cons, List.foldl_cons]
    cases count with
    | zero =>
      rw [decide_eq_false (not_not_intro (hcount ▸ Nat.dvd_refl _))]
      rfl
    | succ count =>
      have hlt : n + 1 < 2 ^ size := by omega
      rw [decide_eq_true (Nat.not_dvd_of_pos_of_lt (Nat.succ_pos n) hlt)]
      exact ih (by omega) (Nat.succ_pos count) (by omega) (f b (ofNat size n))

/-- All assignments are visited, each of them once. -/
theorem fold_eq (size : Nat) (b : β) : fold f size b = (all size).foldl f b := by
  rw [fold, first_eq, Nat.one_shiftLeft, foldFrom_ofNat f (Nat.zero_add _) (Nat.two_pow_pos size) (Nat.le_refl _), all,
    List.range_eq_range']

def afterSteps (size : Nat) : Nat → Assignment
  | 0 => first size
  | steps + 1 => (afterSteps size steps).next.2

private theorem afterSteps_eq (size steps : Nat) : afterSteps size steps = ofNat size steps := by
  induction steps with
  | zero => exact first_eq size
  | succ steps ih => rw [afterSteps, ih, next_ofNat]

private theorem ofNat_mod (size n : Nat) : ofNat size (n % 2 ^ size) = ofNat size n := by
  refine congrArg mk (List.map_congr_left fun i hi => ?_)
  rw [Nat.testBit_mod_two_pow, decide_eq_true (List.mem_range.mp hi), Bool.true_and]

/-- A loop that deals with an assignment and steps to the next one, and goes on for as long as there was one, deals with
these and leaves this one. -/
inductive Visits : Assignment → List Assignment → Assignment → Prop
  | stop {a : Assignment} (h : a.next.1 = false) : Visits a [a] a.next.2
  | step {a left : Assignment} {visited : List Assignment} (h : a.next.1 = true) (hrest : Visits a.next.2 visited left) :
    Visits a (a :: visited) left

private theorem Visits.unique {left left' : Assignment} {visited visited' : List Assignment} (h : Visits a visited left)
    (h' : Visits a visited' left') : visited = visited' ∧ left = left' := by
  induction h generalizing visited' with
  | stop hlast =>
    cases h' with
    | stop => exact ⟨rfl, rfl⟩
    | step hnext => cases hlast.symm.trans hnext
  | step hnext _ ih =>
    cases h' with
    | stop hlast => cases hlast.symm.trans hnext
    | step _ hrest' =>
      obtain ⟨rfl, rfl⟩ := ih hrest'
      exact ⟨rfl, rfl⟩

/-- From some assignment on, a loop visits those that are left, and it leaves the first one. -/
private theorem visits_ofNat {count n : Nat} (hcount : n + count = 2 ^ size) (hpos : 0 < count) :
    Visits (ofNat size n) ((List.range' n count).map (ofNat size)) (first size) := by
  induction count generalizing n with
  | zero => cases hpos
  | succ count ih =>
    have hnext := next_ofNat size n
    rw [List.range'_succ, List.map_cons]
    cases count with
    | zero =>
      have hwrap : first size = (ofNat size n).next.2 := by
        rw [hnext, hcount, ← ofNat_mod, Nat.mod_self, first_eq]
      rw [hwrap]
      exact .stop (by rw [hnext]; exact decide_eq_false (not_not_intro (hcount ▸ Nat.dvd_refl _)))
    | succ count =>
      have hlt : n + 1 < 2 ^ size := by omega
      refine .step (by rw [hnext]; exact decide_eq_true (Nat.not_dvd_of_pos_of_lt (Nat.succ_pos n) hlt)) ?_
      rw [hnext]
      exact ih (by omega) (Nat.succ_pos count)

private theorem visits_first (size : Nat) : Visits (first size) (all size) (first size) := by
  have hvisits := visits_ofNat (Nat.zero_add (2 ^ size)) (Nat.two_pow_pos size)
  rwa [← first_eq, ← List.range_eq_range'] at hvisits

/-- Enumeration counts in binary. After any number of steps from the first assignment the values are the digits of that
number, as many as there are variables, and a step finds no further assignment exactly when the number of steps is a
multiple of the number of assignments. So a loop over all of them visits each one once and leaves the first one, and
what is folded over the assignments is folded over these. -/
theorem enumeration_counts (size : Nat) :
    (∀ steps, (afterSteps size steps).values = (List.range size).map (steps % 2 ^ size).testBit) ∧
      (∀ steps, (afterSteps size steps).next.1 = false ↔ 2 ^ size ∣ steps + 1) ∧
      ∃ visited : List Assignment, visited.length = 2 ^ size ∧ visited.Nodup ∧ (∀ a, a ∈ visited ↔ a.size = size) ∧
        (∀ visited' left, Visits (first size) visited' left ↔ visited' = visited ∧ left = first size) ∧
        ∀ {β : Type} (f : β → Assignment → β) (b : β), fold f size b = visited.foldl f b := by
  refine ⟨fun steps => ?_, fun steps => ?_, all size, ?_, nodup_all size, fun a => mem_all, fun visited' left => ?_,
    fun f b => fold_eq f size b⟩
  · rw [afterSteps_eq, ← ofNat_mod]
    rfl
  · rw [afterSteps_eq, next_ofNat, decide_eq_false_iff_not, not_not]
  · rw [all, List.length_map, List.length_range]
  · constructor
    · exact fun h => h.unique (visits_first size)
    · rintro ⟨rfl, rfl⟩
      exact visits_first size

end Assignment
end WeightedCnf

import Mathlib.Algebra.Field.Rat
import Mathlib.Algebra.Order.Field.Basic
import Mathlib.Algebra.Order.Ring.Int
import Mathlib.Algebra.Order.Ring.Rat
import Mathlib.Data.Int.Cast.Lemmas
import Mathlib.Tactic.Linarith
import WeightedCnf.Weight.Rounding

/-! The exact values of weights, and what simplification and rounding do to them. -/
namespace WeightedCnf.Weight
variable {w s : Weight}

/-- The exact value of a weight, which is zero when the denominator is. -/
def rat (w : Weight) : ℚ := w.num.toInt / w.denom.toInt

theorem toRat?_eq (h : w.isValid = true) : w.toRat? = some w.rat := by
  rw [toRat?, if_pos h, rat, Rat.divInt_eq_div]

theorem isValid_iff : w.isValid = true ↔ w.denom.toInt ≠ 0 := by
  rw [isValid, bne_iff_ne, ne_eq, ne_eq, ← Int64.toInt_inj]
  rfl

theorem isValid_eq_false_iff : w.isValid = false ↔ w.denom = 0 := by
  rw [isValid, bne_eq_false_iff_eq]

theorem component?_eq {n : Int} (h : -2 ^ 63 ≤ n) (h' : n < 2 ^ 63) :
    ∃ c, component? n = some c ∧ c.toInt = n :=
  ⟨_, if_pos ⟨h, Int.le_sub_one_of_lt h'⟩, Int64.toInt_ofInt_of_le h h'⟩

private theorem component_eq_ok {n : Int} {c : Int64} (h : component n = .ok c) : c.toInt = n := by
  unfold component component? at h
  split at h
  · rename_i hc
    split at hc
    · rename_i hn
      cases hc
      cases h
      exact Int64.toInt_ofInt_of_le hn.1 (Int.lt_of_le_sub_one hn.2)
    · cases hc
  · cases h

/-- Neither component has a sign. -/
structure IsUnsigned (w : Weight) : Prop where
  num : 0 ≤ w.num.toInt
  denom : 0 ≤ w.denom.toInt

theorem complement_eq_ok (h : w.complement = .ok s) :
    s.num.toInt = w.denom.toInt - w.num.toInt ∧ s.denom = w.denom := by
  unfold complement at h
  cases hc : component (w.denom.toInt - w.num.toInt) with
  | ok c =>
    rw [hc] at h
    cases h
    exact ⟨component_eq_ok hc, rfl⟩
  | error e =>
    rw [hc] at h
    cases h

private theorem rat_complement (hw : w.isValid = true) (h : w.complement = .ok s) : s.rat = 1 - w.rat := by
  obtain ⟨hnum, hdenom⟩ := complement_eq_ok h
  have hne : (w.denom.toInt : ℚ) ≠ 0 := Int.cast_ne_zero.mpr (isValid_iff.mp hw)
  rw [rat, rat, hnum, hdenom, Int.cast_sub, sub_div, div_self hne]

theorem toRat?_eq_some {q : ℚ} : w.toRat? = some q ↔ w.isValid = true ∧ w.rat = q := by
  rw [toRat?, Option.ite_none_right_eq_some, Option.some.injEq, Rat.divInt_eq_div, rat]

/-- A weight that can be read and its complement add up to one. -/
theorem add_toRat?_complement {p q : ℚ} (h : w.complement = .ok s) (hp : w.toRat? = some p) (hq : s.toRat? = some q) :
    p + q = 1 := by
  obtain ⟨hw, rfl⟩ := toRat?_eq_some.mp hp
  obtain ⟨-, rfl⟩ := toRat?_eq_some.mp hq
  rw [rat_complement hw h, add_sub_cancel]

/-- The complement of a weight without signs is in range. -/
theorem IsUnsigned.exists_complement (h : w.IsUnsigned) : ∃ w', w.complement = .ok w' := by
  have hnum := Int64.toInt_lt w.num
  have hdenom := Int64.toInt_lt w.denom
  obtain ⟨hnum₀, hdenom₀⟩ := h
  have hlargest : largest = 2 ^ 63 - 1 := rfl
  have hrange : -0x8000000000000000 ≤ w.denom.toInt - w.num.toInt ∧ w.denom.toInt - w.num.toInt ≤ largest := by
    omega
  refine ⟨⟨.ofInt (w.denom.toInt - w.num.toInt), w.denom⟩, ?_⟩
  rw [complement, component, component?, if_pos hrange]
  rfl

private theorem toInt_ofInt_ediv (n : Int64) {c : Int} (hc : 0 < c) :
    (Int64.ofInt (n.toInt / c)).toInt = n.toInt / c := by
  refine Int64.toInt_ofInt_of_le ?_ ?_
  · rw [Int.le_ediv_iff_mul_le hc]
    exact le_trans (by omega) n.le_toInt
  · rw [Int.ediv_lt_iff_lt_mul hc]
    exact lt_of_lt_of_le n.toInt_lt (by omega)

/-- A simplified weight is the weight but for a common factor. -/
theorem simplify_eq_ok (h : w.simplify = .ok s) :
    ∃ c : Int, 0 < c ∧ w.num.toInt = c * s.num.toInt ∧ w.denom.toInt = c * s.denom.toInt := by
  unfold simplify at h
  split at h
  · cases h
  dsimp only at h
  split at h
  · cases h
    exact ⟨1, by omega, (one_mul _).symm, (one_mul _).symm⟩
  · rename_i hc
    cases h
    refine ⟨Int.gcd w.num.toInt w.denom.toInt, by omega, ?_, ?_⟩
    · rw [toInt_ofInt_ediv _ (by omega), Int.mul_ediv_cancel' (Int.gcd_dvd_left _ _)]
    · rw [toInt_ofInt_ediv _ (by omega), Int.mul_ediv_cancel' (Int.gcd_dvd_right _ _)]

theorem denom_pos_of_simplify (h : w.simplify = .ok s) (hs : 0 < s.denom.toInt) : 0 < w.denom.toInt := by
  obtain ⟨c, hc, -, hdenom⟩ := simplify_eq_ok h
  exact hdenom ▸ mul_pos hc hs

/-- No common factor is left. -/
theorem gcd_simplify (hd : w.denom.toInt ≠ 0) (h : w.simplify = .ok s) : Int.gcd s.num.toInt s.denom.toInt = 1 := by
  have hgcd : 0 < Int.gcd w.num.toInt w.denom.toInt := Int.gcd_pos_of_ne_zero_right _ hd
  have hpos : (0 : Int) < Int.gcd w.num.toInt w.denom.toInt := Int.natCast_pos.mpr hgcd
  unfold simplify at h
  split at h
  · cases h
  dsimp only at h
  rw [if_neg hpos.ne'] at h
  cases h
  rw [toInt_ofInt_ediv _ hpos, toInt_ofInt_ediv _ hpos]
  exact Int.gcd_ediv_gcd_ediv_gcd hgcd

theorem exists_simplify (hnum : w.num ≠ Int64.minValue) (hdenom : w.denom ≠ Int64.minValue) :
    ∃ s, w.simplify = .ok s := by
  unfold simplify
  rw [if_neg (not_or.mpr ⟨hnum, hdenom⟩)]
  dsimp only
  split <;> exact ⟨_, rfl⟩

theorem ne_minValue {n : Int64} (hn : 0 ≤ n.toInt) : n ≠ Int64.minValue := by
  rintro rfl
  exact absurd hn (by decide)

theorem IsUnsigned.exists_simplify (h : w.IsUnsigned) : ∃ s, w.simplify = .ok s :=
  Weight.exists_simplify (ne_minValue h.num) (ne_minValue h.denom)

theorem rat_simplify (h : w.simplify = .ok s) : s.rat = w.rat := by
  obtain ⟨c, hc, hnum, hdenom⟩ := simplify_eq_ok h
  rw [rat, rat, hnum, hdenom]
  push_cast
  exact (mul_div_mul_left _ _ (Int.cast_ne_zero.mpr hc.ne')).symm

section Probability
variable (hd : 0 < w.denom.toInt)
include hd

theorem isValid_of_pos : w.isValid = true := isValid_iff.mpr hd.ne'

theorem rat_nonneg_iff : 0 ≤ w.rat ↔ 0 ≤ w.num.toInt := by
  rw [rat, le_div_iff₀ (Int.cast_pos.mpr hd), zero_mul, Int.cast_nonneg_iff]

theorem rat_le_one_iff : w.rat ≤ 1 ↔ w.num.toInt ≤ w.denom.toInt := by
  rw [rat, div_le_one (Int.cast_pos.mpr hd), Int.cast_le]

theorem rat_eq_zero_iff : w.rat = 0 ↔ w.num.toInt = 0 := by
  rw [rat, div_eq_zero_iff, Int.cast_eq_zero, Int.cast_eq_zero]
  omega

theorem rat_eq_one_iff : w.rat = 1 ↔ w.num.toInt = w.denom.toInt := by
  rw [rat, div_eq_one_iff_eq (Int.cast_ne_zero.mpr hd.ne'), Int.cast_inj]

end Probability

section Rounding
variable {d : Int}

private theorem numeratorBelow_bounds (hd : 0 < w.denom.toInt) (h0 : 0 ≤ w.num.toInt)
    (h1 : w.num.toInt ≤ w.denom.toInt) (hD : 2 ≤ d) :
    0 < w.numeratorBelow d ∧ w.numeratorBelow d ≤ d ∧
      (w.numeratorBelow d = d → w.num.toInt = w.denom.toInt) := by
  have hlow : 0 ≤ w.num.toInt * d / w.denom.toInt := Int.ediv_nonneg (mul_nonneg h0 (by omega)) hd.le
  have hhigh : w.num.toInt * d / w.denom.toInt ≤ d :=
    Int.ediv_le_of_le_mul hd (by rw [mul_comm]; exact mul_le_mul_of_nonneg_left h1 (by omega))
  have hfull : w.num.toInt * d / w.denom.toInt = d → w.num.toInt = w.denom.toInt := by
    intro h
    have hmul := (Int.le_ediv_iff_mul_le hd).mp h.ge
    rw [mul_comm] at hmul
    exact le_antisymm h1 (le_of_mul_le_mul_right hmul (by omega))
  unfold numeratorBelow
  dsimp only
  split
  · omega
  · exact ⟨by omega, hhigh, hfull⟩

private theorem numeratorAbove_bounds (hd : 0 < w.denom.toInt) (h0 : 0 ≤ w.num.toInt)
    (h1 : w.num.toInt ≤ w.denom.toInt) (hD : 2 ≤ d) :
    0 ≤ w.numeratorAbove d ∧ w.numeratorAbove d < d ∧ (w.numeratorAbove d = 0 → w.num.toInt = 0) := by
  have hlow : -(w.num.toInt * d) / w.denom.toInt ≤ 0 :=
    Int.ediv_le_of_le_mul hd (by rw [zero_mul]; exact Int.neg_nonpos_of_nonneg (mul_nonneg h0 (by omega)))
  have hhigh : -d ≤ -(w.num.toInt * d) / w.denom.toInt := by
    rw [Int.le_ediv_iff_mul_le hd, Int.neg_mul, Int.neg_le_neg_iff, mul_comm]
    exact mul_le_mul_of_nonneg_left h1 (by omega)
  have hzero : -(w.num.toInt * d) / w.denom.toInt = 0 → w.num.toInt = 0 := by
    intro h
    have hmul := (Int.le_ediv_iff_mul_le hd).mp h.ge
    rw [zero_mul] at hmul
    refine le_antisymm ?_ h0
    exact nonpos_of_mul_nonpos_left (by omega) (show 0 < d by omega)
  unfold numeratorAbove
  dsimp only
  split
  · omega
  · exact ⟨by omega, by omega, fun h => hzero (by omega)⟩

theorem ofNumerator_eq {n : Int} (h0 : 0 ≤ n) {denom : Int64} (h : n ≤ denom.toInt) :
    ∃ c : Int64, c.toInt = n ∧ ofNumerator n denom = ⟨c, denom⟩ := by
  obtain ⟨c, hc, hn⟩ := component?_eq (n := n) (by omega) (lt_of_le_of_lt h denom.toInt_lt)
  exact ⟨c, hn, by rw [ofNumerator, hc]⟩

theorem round_eq_or (w : Weight) (denom : Int64) (r : Rounding) :
    w.round denom r = w.roundDown denom ∨ w.round denom r = w.roundUp denom := by
  cases r with
  | up => exact .inr rfl
  | down => exact .inl rfl
  | near =>
    rw [round, roundNear]
    split
    · rename_i h
      rw [roundDown, if_pos h]
      exact .inl rfl
    · dsimp only
      split
      · exact .inl rfl
      · exact .inr rfl

/-- A rounded probability is a probability, zero only when it was zero and one only when it was one. -/
theorem round_eq (hd : 0 < w.denom.toInt) (h0 : 0 ≤ w.num.toInt) (h1 : w.num.toInt ≤ w.denom.toInt)
    {denom : Int64} (hD : 2 ≤ denom.toInt) (r : Rounding) :
    ∃ n : Int64, w.round denom r = ⟨n, denom⟩ ∧ 0 ≤ n.toInt ∧ n.toInt ≤ denom.toInt ∧
      (n.toInt = 0 → w.num.toInt = 0) ∧ (n.toInt = denom.toInt → w.num.toInt = w.denom.toInt) := by
  rcases round_eq_or w denom r with h | h
  · obtain ⟨hlow, hhigh, hfull⟩ := numeratorBelow_bounds hd h0 h1 hD
    obtain ⟨n, hn, heq⟩ := ofNumerator_eq hlow.le hhigh
    rw [h, roundDown, if_neg (by omega), heq]
    exact ⟨n, rfl, by omega, by omega, by omega, fun he => hfull (by omega)⟩
  · obtain ⟨hlow, hhigh, hzero⟩ := numeratorAbove_bounds hd h0 h1 hD
    obtain ⟨n, hn, heq⟩ := ofNumerator_eq hlow hhigh.le
    rw [h, roundUp, if_neg (by omega), heq]
    exact ⟨n, rfl, by omega, by omega, fun he => hzero (by omega), by omega⟩

/-- The same of the lowest terms of a rounded probability. -/
theorem simplify_round_eq_ok (hd : 0 < w.denom.toInt) (h0 : 0 ≤ w.num.toInt) (h1 : w.num.toInt ≤ w.denom.toInt)
    {denom : Int64} (hD : 2 ≤ denom.toInt) {r : Rounding} (h : (w.round denom r).simplify = .ok s) :
    0 < s.denom.toInt ∧ 0 ≤ s.num.toInt ∧ s.num.toInt ≤ s.denom.toInt ∧
      (s.num.toInt = 0 → w.num.toInt = 0) ∧ (s.num.toInt = s.denom.toInt → w.num.toInt = w.denom.toInt) := by
  obtain ⟨n, hn, hn0, hn1, hzero, hone⟩ := round_eq hd h0 h1 hD r
  obtain ⟨c, hc, hnum, hdenom⟩ := simplify_eq_ok h
  rw [hn] at hnum hdenom
  dsimp only at hnum hdenom
  refine ⟨pos_of_mul_pos_right (hdenom ▸ (by omega : 0 < denom.toInt)) hc.le,
    nonneg_of_mul_nonneg_right (hnum ▸ hn0) hc, le_of_mul_le_mul_left (hnum ▸ hdenom ▸ hn1) hc,
    fun h => hzero ?_, fun h => hone ?_⟩
  · rw [hnum, h, mul_zero]
  · rw [hnum, hdenom, h]

end Rounding
end WeightedCnf.Weight

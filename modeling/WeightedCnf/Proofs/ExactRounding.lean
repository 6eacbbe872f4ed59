import Mathlib.Data.Rat.Lemmas
import Mathlib.Tactic.FieldSimp
import WeightedCnf.Proofs.Weights

/-! Weights that need no rounding: which of them the three ways of rounding leave as they are. -/
namespace WeightedCnf
namespace Weight
variable {w s : Weight} {q : ℚ}

/-- The weight is this fraction in lowest terms. -/
structure IsLowest (w : Weight) (q : ℚ) : Prop where
  num : w.num.toInt = q.num
  denom : w.denom.toInt = q.den

namespace IsLowest

private theorem unique (h : w.IsLowest q) (h' : s.IsLowest q) : w = s := by
  obtain ⟨n, d⟩ := w
  obtain ⟨n', d'⟩ := s
  rw [mk.injEq, ← Int64.toInt_inj, ← Int64.toInt_inj]
  exact ⟨h.num.trans h'.num.symm, h.denom.trans h'.denom.symm⟩

variable (h : w.IsLowest q)
include h

theorem denom_pos : 0 < w.denom.toInt := by
  rw [h.denom]
  exact Int.natCast_pos.mpr q.den_pos

theorem toNat_denom : w.denom.toInt.toNat = q.den := by
  rw [h.denom, Int.toNat_natCast]

theorem rat : w.rat = q := by
  rw [Weight.rat, h.num, h.denom]
  exact Rat.num_div_den q

theorem eq_half_iff : w = .half ↔ q = 1 / 2 := by
  constructor
  · rintro rfl
    exact h.rat.symm.trans (by decide +kernel)
  · rintro rfl
    exact h.unique ⟨by decide +kernel, by decide +kernel⟩

theorem num_eq_zero_iff : w.num = 0 ↔ q = 0 := by
  rw [← h.rat, rat_eq_zero_iff h.denom_pos, ← Int64.toInt_inj]
  rfl

theorem num_eq_denom_iff : w.num = w.denom ↔ q = 1 := by
  rw [← h.rat, rat_eq_one_iff h.denom_pos, Int64.toInt_inj]

theorem isUnsigned (h0 : 0 ≤ q) : w.IsUnsigned :=
  ⟨(rat_nonneg_iff h.denom_pos).mp (h.rat ▸ h0), h.denom_pos.le⟩

theorem num_le_denom (h1 : q ≤ 1) : w.num.toInt ≤ w.denom.toInt :=
  (rat_le_one_iff h.denom_pos).mp (h.rat ▸ h1)

/-- The lowest terms of one minus the fraction. -/
theorem complement (h' : s.IsLowest (1 - q)) : w.denom = s.denom ∧ w.num.toInt + s.num.toInt = w.denom.toInt := by
  have hdenom : w.denom = s.denom := by
    rw [← Int64.toInt_inj, h.denom, h'.denom, Rat.ofNat_sub_den]
  refine ⟨hdenom, ?_⟩
  have hd : (w.denom.toInt : ℚ) ≠ 0 := Int.cast_ne_zero.mpr h.denom_pos.ne'
  have hrat := h'.rat
  rw [← h.rat, Weight.rat, Weight.rat, ← hdenom] at hrat
  field_simp at hrat
  rw [eq_sub_iff_add_eq'] at hrat
  exact_mod_cast hrat

end IsLowest

/-- Simplification gives the lowest terms. -/
theorem isLowest_simplify (hd : 0 < w.denom.toInt) (h : w.simplify = .ok s) : s.IsLowest w.rat := by
  have hgcd := gcd_simplify hd.ne' h
  obtain ⟨c, hc, -, hdenom⟩ := simplify_eq_ok h
  have hpos : 0 < s.denom.toInt := pos_of_mul_pos_right (hdenom ▸ hd) hc.le
  rw [← rat_simplify h, Weight.rat]
  exact ⟨(Rat.num_div_eq_of_coprime hpos hgcd).symm, (Rat.den_div_eq_of_coprime hpos hgcd).symm⟩

/-- Simplification takes absolute values, which the least component does not have; a negative denominator would stay
negative. -/
structure IsSimplifiable (w : Weight) : Prop where
  denom_pos : 0 < w.denom.toInt
  num_ne : w.num ≠ Int64.minValue

/-- Fractions of one value have the same lowest terms. -/
theorem simplify_congr {p q : Weight} (hp : p.IsSimplifiable) (hq : q.IsSimplifiable) (h : p.rat = q.rat) :
    p.simplify = q.simplify := by
  obtain ⟨s, hs⟩ := exists_simplify hp.num_ne (ne_minValue hp.denom_pos.le)
  obtain ⟨t, ht⟩ := exists_simplify hq.num_ne (ne_minValue hq.denom_pos.le)
  rw [hs, ht, (isLowest_simplify hp.denom_pos hs).unique (h ▸ isLowest_simplify hq.denom_pos ht)]

/-- A fraction between zero and one has lowest terms. -/
theorem exists_isLowest (h0 : 0 ≤ w.rat) (hd : 0 < w.denom.toInt) : ∃ s, w.simplify = .ok s ∧ s.IsLowest w.rat := by
  obtain ⟨s, hs⟩ := IsUnsigned.exists_simplify ⟨(rat_nonneg_iff hd).mp h0, hd.le⟩
  exact ⟨s, hs, isLowest_simplify hd hs⟩

end Weight

def IsMultiple (bits : Nat) (q : ℚ) : Prop :=
  ∃ k : ℤ, q * 2 ^ bits = k

/-- This way of rounding does not move the fraction away, if it is a multiple. Zero and one are special: rounding
down avoids zero and rounding up avoids one, and doubles have no more than 53 bits to tell numbers near one apart. -/
def Rounding.Spares : Rounding → Nat → ℚ → Prop
  | down, _, q => q ≠ 0
  | up, _, q => q ≠ 1
  | near, bits, q => q = 1 → bits ≤ 53

instance : (rounding : Rounding) → (bits : Nat) → (q : ℚ) → Decidable (rounding.Spares bits q)
  | .down, _, q => inferInstanceAs (Decidable (q ≠ 0))
  | .up, _, q => inferInstanceAs (Decidable (q ≠ 1))
  | .near, bits, q => inferInstanceAs (Decidable (q = 1 → bits ≤ 53))

/-- The denominator for rounding to this many bits. -/
theorem toInt_shiftLeft {bits : Nat} (h : bits ≤ 62) : (Int64.ofNat (1 <<< bits)).toInt = 2 ^ bits := by
  have hlt : 2 ^ bits < 2 ^ 63 := Nat.pow_lt_pow_right (by omega) (by omega)
  rw [Nat.one_shiftLeft, Int64.toInt_ofNat_of_lt hlt]
  exact_mod_cast rfl

namespace Weight
variable {w s : Weight} {q : ℚ} {bits : Nat}

private theorem num_mul_eq (h : w.IsLowest q) {k : ℤ} (hk : q * 2 ^ bits = k) :
    w.num.toInt * 2 ^ bits = k * w.denom.toInt := by
  have hd : (w.denom.toInt : ℚ) ≠ 0 := Int.cast_ne_zero.mpr h.denom_pos.ne'
  rw [← h.rat, Weight.rat, div_mul_eq_mul_div, div_eq_iff hd] at hk
  exact_mod_cast hk

private theorem numeratorBelow_eq (h : w.IsLowest q) {k : ℤ} (hk : q * 2 ^ bits = k) (hne : k ≠ 0) :
    w.numeratorBelow (2 ^ bits) = k := by
  unfold numeratorBelow
  rw [num_mul_eq h hk, Int.mul_ediv_cancel _ h.denom_pos.ne']
  exact if_neg hne

private theorem numeratorAbove_eq (h : w.IsLowest q) {k : ℤ} (hk : q * 2 ^ bits = k) (hne : k ≠ 2 ^ bits) :
    w.numeratorAbove (2 ^ bits) = k := by
  unfold numeratorAbove
  rw [num_mul_eq h hk, ← Int.neg_mul, Int.mul_ediv_cancel _ h.denom_pos.ne', Int.neg_neg]
  exact if_neg hne

private theorem roundNear_zero : ∀ bits ∈ List.range 63, 1 ≤ bits →
    (⟨0, 1⟩ : Weight).roundNear (.ofNat (1 <<< bits)) = (⟨0, 1⟩ : Weight).roundUp (.ofNat (1 <<< bits)) := by
  decide +kernel

/-- Doubles tell one apart from the fractions next to it as long as these have 53 bits at most. -/
private theorem roundNear_one : ∀ bits ∈ List.range 54, 1 ≤ bits →
    (⟨1, 1⟩ : Weight).roundNear (.ofNat (1 <<< bits)) = (⟨1, 1⟩ : Weight).roundDown (.ofNat (1 <<< bits)) := by
  decide +kernel

section Exact
variable (hlow : 1 ≤ bits) (hhigh : bits ≤ 62) (h : w.IsLowest q)
include hlow hhigh h

private theorem round_eq_ofNumerator {k : ℤ} (hk : q * 2 ^ bits = k) {rounding : Rounding}
    (hspares : rounding.Spares bits q) :
    w.round (.ofNat (1 <<< bits)) rounding = ofNumerator k (.ofNat (1 <<< bits)) := by
  have hD := toInt_shiftLeft hhigh
  have hpos : ¬ w.denom.toInt ≤ 0 := not_le.mpr h.denom_pos
  have hpow : (2 ^ bits : ℚ) ≠ 0 := pow_ne_zero _ two_ne_zero
  have hdown (hq : q ≠ 0) : w.roundDown (.ofNat (1 <<< bits)) = ofNumerator k (.ofNat (1 <<< bits)) := by
    have hne : k ≠ 0 := by
      rintro rfl
      exact (mul_ne_zero hq hpow) (hk.trans Int.cast_zero)
    rw [roundDown, if_neg hpos, hD, numeratorBelow_eq h hk hne]
  have hup (hq : q ≠ 1) : w.roundUp (.ofNat (1 <<< bits)) = ofNumerator k (.ofNat (1 <<< bits)) := by
    have hne : k ≠ 2 ^ bits := by
      rintro rfl
      rw [Int.cast_pow, Int.cast_ofNat] at hk
      exact hq ((mul_eq_right₀ hpow).mp hk)
    rw [roundUp, if_neg hpos, hD, numeratorAbove_eq h hk hne]
  cases rounding with
  | down => exact hdown hspares
  | up => exact hup hspares
  | near =>
    by_cases hzero : q = 0
    · have hw : w = ⟨0, 1⟩ := h.unique (hzero ▸ ⟨rfl, rfl⟩)
      rw [← hup (hzero ▸ zero_ne_one), hw]
      exact roundNear_zero bits (List.mem_range.mpr (by omega)) hlow
    by_cases hone : q = 1
    · have hw : w = ⟨1, 1⟩ := h.unique (hone ▸ ⟨rfl, rfl⟩)
      have hbits : bits ≤ 53 := hspares hone
      rw [← hdown hzero, hw]
      exact roundNear_one bits (List.mem_range.mpr (by omega)) hlow
    · rw [round, roundNear, if_neg hpos]
      dsimp only
      rw [hdown hzero, hup hone]
      exact ite_self _

/-- A multiple is rounded to itself. -/
theorem simplify_round (h0 : 0 ≤ q) (h1 : q ≤ 1) (hmultiple : IsMultiple bits q) {rounding : Rounding}
    (hspares : rounding.Spares bits q) : (w.round (.ofNat (1 <<< bits)) rounding).simplify = .ok w := by
  obtain ⟨k, hk⟩ := hmultiple
  have hD := toInt_shiftLeft hhigh
  have hpow : (0 : ℚ) < 2 ^ bits := pow_pos two_pos _
  have hk0 : 0 ≤ k := by
    rw [← Int.cast_nonneg_iff (R := ℚ), ← hk]
    exact mul_nonneg h0 hpow.le
  have hk1 : k ≤ (Int64.ofNat (1 <<< bits)).toInt := by
    rw [hD, ← Int.cast_le (R := ℚ), ← hk, Int.cast_pow, Int.cast_ofNat]
    exact mul_le_of_le_one_left hpow.le h1
  obtain ⟨c, hc, heq⟩ := ofNumerator_eq hk0 hk1
  rw [round_eq_ofNumerator hlow hhigh h hk hspares, heq]
  have hrat : (⟨c, .ofNat (1 <<< bits)⟩ : Weight).rat = q := by
    rw [Weight.rat, hc, hD, ← hk, Int.cast_pow, Int.cast_ofNat]
    exact mul_div_cancel_right₀ _ hpow.ne'
  have hdpos : 0 < (⟨c, .ofNat (1 <<< bits)⟩ : Weight).denom.toInt := by
    rw [hD]
    exact pow_pos two_pos _
  obtain ⟨s, hs, hlowest⟩ := exists_isLowest (hrat ▸ h0) hdpos
  rw [hrat] at hlowest
  rw [hs, hlowest.unique h]

end Exact
end Weight
end WeightedCnf

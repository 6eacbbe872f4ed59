import Mathlib.Algebra.Order.Field.Power
import Mathlib.Data.Rat.Cast.Order
import Mathlib.Tactic.FieldSimp
import Mathlib.Tactic.Linarith
import Mathlib.Tactic.NormNum
import Mathlib.Tactic.Positivity
import Mathlib.Tactic.Ring

/-! Rounding exact fractions to 53 significant bits. A significand under way carries two more bits, which tell on which
side of the middle of its last unit the exact fraction lies. -/
namespace WeightedCnf.Binary64
open Float.Model (Format UnpackedFloat totalExponent)
open Float.Model.UnpackedFloat

/-- A whole number of at most 53 bits times a power of two. -/
def IsRepresentable (q : ℚ) : Prop :=
  ∃ k e : ℤ, |k| ≤ 2 ^ 53 ∧ q = k * 2 ^ e

/-- The second number is the first one rounded to 53 significant bits: a whole number of units that is off by half a
unit at most, where the unit is so small that there are 53 bits of them. Only zero is rounded to zero. -/
inductive Rounds : ℚ → ℚ → Prop
  | zero : Rounds 0 0
  | units {x : ℚ} {m : ℕ} {e : ℤ} (hx : 2 ^ 52 * 2 ^ e ≤ x) (hlow : 2 ^ 52 ≤ m) (hhigh : m ≤ 2 ^ 53)
      (hoff : |x - m * 2 ^ e| ≤ 2 ^ e / 2) : Rounds x (m * 2 ^ e)

namespace IsRepresentable
variable {x y : ℚ}

theorem intCast {k : ℤ} (h : |k| ≤ 2 ^ 53) : IsRepresentable k :=
  ⟨k, 0, h, by rw [zpow_zero, mul_one]⟩

private theorem mul_zpow (hx : IsRepresentable x) (n : ℤ) : IsRepresentable (x * 2 ^ n) := by
  obtain ⟨k, e, hk, rfl⟩ := hx
  exact ⟨k, e + n, hk, by rw [mul_assoc, zpow_add₀ two_ne_zero]⟩

theorem div_pow (hx : IsRepresentable x) (n : ℕ) : IsRepresentable (x / 2 ^ n) := by
  rw [div_eq_mul_inv, ← zpow_natCast, ← zpow_neg]
  exact hx.mul_zpow _

end IsRepresentable

private theorem exists_units {e f : ℤ} (hef : e ≤ f) (k : ℤ) : ∃ n : ℤ, (k * 2 ^ f : ℚ) = n * 2 ^ e := by
  refine ⟨k * 2 ^ (f - e).toNat, ?_⟩
  rw [Int.cast_mul, Int.cast_pow, Int.cast_ofNat, mul_assoc, ← zpow_natCast, Int.toNat_of_nonneg (by omega),
    ← zpow_add₀ two_ne_zero, sub_add_cancel]

/-- The difference of two numbers that are within a factor of two of each other has no more bits than they have. -/
theorem IsRepresentable.sub {x y : ℚ} (hx : IsRepresentable x) (hy : IsRepresentable y) (hle : y ≤ x)
    (htwice : x ≤ 2 * y) : IsRepresentable (x - y) := by
  have hbound {z : ℚ} {k e n : ℤ} (hk : |k| ≤ 2 ^ 53) (hz : z = k * 2 ^ e) (hn : x - y = n * 2 ^ e)
      (hxz : x - y ≤ z) : IsRepresentable (x - y) := by
    have hunit : (0 : ℚ) < 2 ^ e := zpow_pos two_pos e
    have h0 : 0 ≤ n := Int.cast_nonneg_iff.mp (nonneg_of_mul_nonneg_left (hn ▸ sub_nonneg.mpr hle) hunit)
    have hnk : n ≤ k := Int.cast_le.mp (le_of_mul_le_mul_right (hn ▸ hz ▸ hxz) hunit)
    exact ⟨n, e, by rw [abs_of_nonneg h0]; exact hnk.trans ((le_abs_self k).trans hk), hn⟩
  obtain ⟨k, e, hk, hxk⟩ := hx
  obtain ⟨l, f, hl, hyl⟩ := hy
  rcases le_total e f with hef | hfe
  · obtain ⟨n, hn⟩ := exists_units hef l
    exact hbound hk hxk (n := k - n) (by rw [hxk, hyl, hn, Int.cast_sub, sub_mul]) (by linarith)
  · obtain ⟨n, hn⟩ := exists_units hfe k
    exact hbound hl hyl (n := n - l) (by rw [hxk, hyl, hn, Int.cast_sub, sub_mul]) (by linarith)

namespace Rounds
variable {x y z : ℚ} (h : Rounds x y)
include h

theorem nonneg_left : 0 ≤ x := by
  cases h with
  | zero => exact le_rfl
  | units hx => exact le_trans (by positivity) hx

theorem nonneg_right : 0 ≤ y := by
  cases h with
  | zero => exact le_rfl
  | units => positivity

theorem pos_right (hx : 0 < x) : 0 < y := by
  cases h with
  | zero => exact hx
  | @units _ m e _ hlow =>
    have hm : 0 < m := by omega
    positivity

theorem isRepresentable : IsRepresentable y := by
  cases h with
  | zero => exact ⟨0, 0, by norm_num, by norm_num⟩
  | @units _ m e _ _ hhigh =>
    refine ⟨m, e, ?_, by rw [Int.cast_natCast]⟩
    rw [Nat.abs_cast]
    exact_mod_cast hhigh

omit h in
theorem of_abs (h : Rounds |x| |y|) (hsign : 0 < y * x) (hx : 0 < x) : Rounds x y := by
  rwa [abs_of_pos hx, abs_of_pos (pos_of_mul_pos_left hsign hx.le)] at h

/-- Rounding is off by one part in two to the 53 at most. -/
theorem abs_sub_le : |x - y| ≤ x / 2 ^ 53 := by
  cases h with
  | zero => norm_num
  | units hx _ _ hoff => exact hoff.trans (by linarith)

/-- Below one, half a unit is two to the minus 54 at most. -/
theorem abs_sub_le_of_lt_one (hone : x < 1) : |x - y| ≤ 1 / 2 ^ 54 := by
  cases h with
  | zero => norm_num
  | @units _ _ e hx _ _ hoff =>
    have hunit : (2 : ℚ) ^ e < 2 ^ (-52 : ℤ) := by
      rw [zpow_neg]
      linarith
    have he : e ≤ -53 := Int.le_sub_one_of_lt ((zpow_lt_zpow_iff_right₀ one_lt_two).mp hunit)
    have hle : (2 : ℚ) ^ e ≤ 2 ^ (-53 : ℤ) := zpow_le_zpow_right₀ one_le_two he
    rw [zpow_neg] at hle
    exact hoff.trans (by linarith)

end Rounds

/-- A representable number is a whole number of units, or it has so few of them that it is not above the numbers with
53 bits left of the unit. -/
private theorem IsRepresentable.units_or_le {z : ℚ} (hz : IsRepresentable z) (e : ℤ) :
    (∃ n : ℤ, z = n * 2 ^ e) ∨ z ≤ 2 ^ 52 * 2 ^ e := by
  obtain ⟨k, f, hk, rfl⟩ := hz
  rcases le_or_gt e f with hef | hfe
  · exact .inl (exists_units hef k)
  · right
    have hk' : (k : ℚ) ≤ 2 ^ 53 := by exact_mod_cast (le_abs_self k).trans hk
    calc (k * 2 ^ f : ℚ)
        ≤ 2 ^ 53 * 2 ^ (e - 1) :=
          mul_le_mul hk' (zpow_le_zpow_right₀ one_le_two (by omega)) (by positivity) (by positivity)
      _ = 2 ^ 52 * 2 ^ e := by
          rw [zpow_sub_one₀ two_ne_zero]
          ring

namespace Rounds
variable {x y z : ℚ} (h : Rounds x y) (hz : IsRepresentable z)
include h hz

/-- Rounding up does not jump over a representable number. -/
theorem le_of_le (hxz : x ≤ z) : y ≤ z := by
  cases h with
  | zero => exact hxz
  | @units _ m e hx hlow hhigh hoff =>
    have hunit : (0 : ℚ) < 2 ^ e := zpow_pos two_pos e
    obtain ⟨hoff', -⟩ := abs_le.mp hoff
    have hle {n : ℤ} (hn : x ≤ n * 2 ^ e) : (m * 2 ^ e : ℚ) ≤ n * 2 ^ e := by
      have hlt : (m : ℚ) < n + 1 := lt_of_mul_lt_mul_right (by linarith) hunit.le
      have hmn : (m : ℤ) ≤ n := Int.lt_add_one_iff.mp (by exact_mod_cast hlt)
      exact mul_le_mul_of_nonneg_right (by exact_mod_cast hmn) hunit.le
    rcases hz.units_or_le e with ⟨n, rfl⟩ | hsmall
    · exact hle hxz
    · have hfew := hle (n := 2 ^ 52) (by exact_mod_cast hxz.trans hsmall)
      rw [Int.cast_pow, Int.cast_ofNat] at hfew
      exact hfew.trans (hx.trans hxz)

/-- Rounding down does not jump over a representable number. -/
theorem ge_of_ge (hzx : z ≤ x) : z ≤ y := by
  cases h with
  | zero => exact hzx
  | @units _ m e hx hlow hhigh hoff =>
    have hunit : (0 : ℚ) < 2 ^ e := zpow_pos two_pos e
    obtain ⟨-, hoff'⟩ := abs_le.mp hoff
    rcases hz.units_or_le e with ⟨n, rfl⟩ | hsmall
    · have hlt : (n : ℚ) < m + 1 := lt_of_mul_lt_mul_right (by linarith) hunit.le
      have hnm : n ≤ m := Int.lt_add_one_iff.mp (by exact_mod_cast hlt)
      exact mul_le_mul_of_nonneg_right (by exact_mod_cast hnm) hunit.le
    · exact hsmall.trans (mul_le_mul_of_nonneg_right (by exact_mod_cast hlow) hunit.le)

omit hz in
/-- A representable number is not rounded. -/
theorem eq_self (hx : IsRepresentable x) : y = x :=
  le_antisymm (h.le_of_le hx le_rfl) (h.ge_of_ge hx le_rfl)

end Rounds

/-- Rounding commutes with scaling by powers of two. -/
theorem Rounds.div_pow {x y : ℚ} (h : Rounds x y) (n : ℕ) : Rounds (x / 2 ^ n) (y / 2 ^ n) := by
  have hpow : (0 : ℚ) < 2 ^ n := pow_pos two_pos n
  have hscale (e : ℤ) : (2 ^ e / 2 ^ n : ℚ) = 2 ^ (e - n) := by rw [zpow_sub₀ two_ne_zero, zpow_natCast]
  cases h with
  | zero =>
    rw [zero_div]
    exact .zero
  | @units _ m e hx hlow hhigh hoff =>
    rw [mul_div_assoc, hscale]
    refine .units ?_ hlow hhigh ?_
    · rw [← hscale, ← mul_div_assoc]
      exact div_le_div_of_nonneg_right hx hpow.le
    · rw [← hscale, ← mul_div_assoc, ← sub_div, abs_div, abs_of_pos hpow, div_right_comm]
      exact div_le_div_of_nonneg_right hoff hpow.le

/-- A quotient of rounded numbers that is rounded once more is off by four parts in two to the 53 at most. -/
theorem Rounds.abs_div_sub_le {x y a c v : ℚ} (ha : Rounds x a) (hc : Rounds y c) (hv : Rounds (a / c) v) (hx : 0 < x)
    (hy : 0 < y) : |v - x / y| ≤ 4 * (x / y / 2 ^ 53) := by
  have hratio : 0 < x / y := div_pos hx hy
  obtain ⟨halow, hahigh⟩ := abs_le.mp ha.abs_sub_le
  obtain ⟨hclow, hchigh⟩ := abs_le.mp hc.abs_sub_le
  obtain ⟨hvlow, hvhigh⟩ := abs_le.mp hv.abs_sub_le
  have hlow : (1 - 1 / 2 ^ 53) / (1 + 1 / 2 ^ 53) * (x / y) ≤ a / c := by
    rw [div_mul_div_comm]
    exact div_le_div₀ ha.nonneg_right (by linarith) (hc.pos_right hy) (by linarith)
  have hhigh : a / c ≤ (1 + 1 / 2 ^ 53) / (1 - 1 / 2 ^ 53) * (x / y) := by
    rw [div_mul_div_comm]
    exact div_le_div₀ (by positivity) (by linarith) (by norm_num; exact hy) (by linarith)
  rw [abs_le]
  constructor
  · have hconst : 1 - 4 / 2 ^ 53 ≤ (1 - 1 / 2 ^ 53) * ((1 - 1 / 2 ^ 53) / (1 + 1 / 2 ^ 53) : ℚ) := by norm_num
    linarith [mul_le_mul_of_nonneg_right hconst hratio.le]
  · have hconst : (1 + 1 / 2 ^ 53) * ((1 + 1 / 2 ^ 53) / (1 - 1 / 2 ^ 53) : ℚ) ≤ 1 + 4 / 2 ^ 53 := by norm_num
    linarith [mul_le_mul_of_nonneg_right hconst hratio.le]

/-- The fraction lies in the unit above the mantissa, and the residual bits say on which side of its middle. -/
inductive Represents : ExtendedMantissa → ℚ → Prop
  | exact (m : ℕ) : Represents ⟨m, false, false⟩ m
  | belowHalf {m : ℕ} {t : ℚ} (hlow : m < t) (hhigh : t < m + 1 / 2) : Represents ⟨m, false, true⟩ t
  | half (m : ℕ) : Represents ⟨m, true, false⟩ (m + 1 / 2)
  | aboveHalf {m : ℕ} {t : ℚ} (hlow : m + 1 / 2 < t) (hhigh : t < m + 1) : Represents ⟨m, true, true⟩ t

namespace Represents
variable {em : ExtendedMantissa} {t : ℚ}

/-- A quotient with remainder, the remainder compared to half of the divisor. -/
theorem quotient (n : ℕ) {d : ℕ} (hd : 0 < d) :
    Represents (.ofMantissaAndAccuracy (n / d) (accuracyOfFraction (n % d) d)) (n / d) := by
  have hd' : (0 : ℚ) < d := Nat.cast_pos.mpr hd
  have hsplit : (n : ℚ) / d = (n / d : ℕ) + (n % d : ℕ) / d := by
    rw [eq_comm, ← mul_right_cancel_iff_of_pos hd', add_mul, div_mul_cancel₀ _ hd'.ne', div_mul_cancel₀ _ hd'.ne']
    exact_mod_cast Nat.div_add_mod' n d
  have hmod : (n % d : ℕ) < (d : ℚ) := Nat.cast_lt.mpr (Nat.mod_lt n hd)
  rw [hsplit]
  unfold accuracyOfFraction
  split
  · rename_i hzero
    rw [hzero, Nat.cast_zero, zero_div, add_zero]
    exact .exact _
  · rename_i hzero
    have hpos : 0 < ((n % d : ℕ) : ℚ) := Nat.cast_pos.mpr (Nat.pos_of_ne_zero hzero)
    cases hcompare : compare (2 * (n % d)) d with
    | lt =>
      have hlt : (2 * (n % d : ℕ) : ℚ) < d := by exact_mod_cast Nat.compare_eq_lt.mp hcompare
      exact .belowHalf (lt_add_of_pos_right _ (div_pos hpos hd'))
        (by rw [add_lt_add_iff_left, div_lt_div_iff₀ hd' two_pos]; linarith)
    | eq =>
      have heq : (2 * (n % d : ℕ) : ℚ) = d := by exact_mod_cast Nat.compare_eq_eq.mp hcompare
      have hhalf : ((n % d : ℕ) : ℚ) / d = 1 / 2 := by rw [div_eq_div_iff hd'.ne' two_ne_zero]; linarith
      rw [hhalf]
      exact .half _
    | gt =>
      have hgt : (d : ℚ) < 2 * (n % d : ℕ) := by exact_mod_cast Nat.compare_eq_gt.mp hcompare
      exact .aboveHalf (by rw [add_lt_add_iff_left, div_lt_div_iff₀ two_pos hd']; linarith)
        (by rw [add_lt_add_iff_left, div_lt_one hd']; exact hmod)

private theorem shiftRightOne_even (n : ℕ) (r s : Bool) :
    ExtendedMantissa.shiftRightOne ⟨2 * n, r, s⟩ = ⟨n, false, r || s⟩ := by
  simp [ExtendedMantissa.shiftRightOne]

private theorem shiftRightOne_odd (n : ℕ) (r s : Bool) :
    ExtendedMantissa.shiftRightOne ⟨2 * n + 1, r, s⟩ = ⟨n, true, r || s⟩ := by
  simp [ExtendedMantissa.shiftRightOne, Nat.mul_add_div]

/-- A fraction that is not whole leaves a residual bit behind, so that only the last bit of the mantissa matters. -/
private theorem shiftRightOne_of_inexact {m : ℕ} {r s : Bool} (hrs : (r || s) = true) (hlow : m < t)
    (hhigh : t < m + 1) : Represents (ExtendedMantissa.shiftRightOne ⟨m, r, s⟩) (t / 2) := by
  obtain ⟨n, rfl | rfl⟩ := Nat.even_or_odd' m <;> push_cast at hlow hhigh
  · rw [shiftRightOne_even, hrs]
    exact .belowHalf (by linarith) (by linarith)
  · rw [shiftRightOne_odd, hrs]
    exact .aboveHalf (by linarith) (by linarith)

section Shift
variable (h : Represents em t)
include h

private theorem mantissa_le : em.mantissa ≤ t := by
  cases h with
  | exact => exact le_rfl
  | belowHalf hlow => exact hlow.le
  | half => exact le_add_of_nonneg_right (by norm_num)
  | aboveHalf hlow => exact le_trans (le_add_of_nonneg_right (by norm_num)) hlow.le

private theorem lt_mantissa_add_one : t < em.mantissa + 1 := by
  cases h with
  | exact => exact lt_add_one _
  | belowHalf _ hhigh => exact hhigh.trans (by norm_num)
  | half => norm_num
  | aboveHalf _ hhigh => exact hhigh

private theorem roundedMantissa : |t - em.roundedMantissa| ≤ 1 / 2 ∧ em.mantissa ≤ em.roundedMantissa ∧
    em.roundedMantissa ≤ em.mantissa + 1 := by
  cases h with
  | exact m => exact ⟨by simp [ExtendedMantissa.roundedMantissa, ExtendedMantissa.accuracy,
      Accuracy.roundToNearestEven], le_rfl, Nat.le_succ m⟩
  | @belowHalf m _ hlow hhigh =>
    refine ⟨?_, le_rfl, Nat.le_succ m⟩
    change |t - (m : ℕ)| ≤ 1 / 2
    rw [abs_of_pos (sub_pos.mpr hlow)]
    linarith
  | half m =>
    have heven : (⟨m, true, false⟩ : ExtendedMantissa).roundedMantissa = m + m % 2 := rfl
    rw [heven]
    dsimp only
    refine ⟨?_, by omega, by omega⟩
    rcases Nat.mod_two_eq_zero_or_one m with hm | hm <;> rw [hm] <;> norm_num
  | @aboveHalf m _ hlow hhigh =>
    refine ⟨?_, Nat.le_succ m, le_rfl⟩
    change |t - (m + 1 : ℕ)| ≤ 1 / 2
    rw [abs_sub_comm, Nat.cast_add, Nat.cast_one, abs_of_pos (sub_pos.mpr hhigh)]
    linarith

private theorem shiftRightOne : Represents em.shiftRightOne (t / 2) := by
  have hlow := h.mantissa_le
  have hhigh := h.lt_mantissa_add_one
  cases h with
  | exact m =>
    obtain ⟨n, rfl | rfl⟩ := Nat.even_or_odd' m
    · rw [shiftRightOne_even, Nat.cast_mul, Nat.cast_ofNat, mul_div_cancel_left₀ _ two_ne_zero]
      exact .exact n
    · rw [shiftRightOne_odd, Nat.cast_add, Nat.cast_mul, Nat.cast_ofNat, Nat.cast_one, add_div,
        mul_div_cancel_left₀ _ two_ne_zero]
      exact .half n
  | belowHalf hlow => exact shiftRightOne_of_inexact rfl hlow hhigh
  | half => exact shiftRightOne_of_inexact rfl (by norm_num) hhigh
  | aboveHalf hlow => exact shiftRightOne_of_inexact rfl (lt_trans (by norm_num) hlow) hhigh

private theorem shiftRight (n : ℕ) : Represents (em >>> n) (t / 2 ^ n) := by
  change Represents (n.repeat ExtendedMantissa.shiftRightOne em) _
  induction n with
  | zero => rwa [pow_zero, div_one]
  | succ n ih =>
    rw [pow_succ, ← div_div]
    exact ih.shiftRightOne

end Shift
end Represents

/-- An unpacked zero, or an unpacked number of 53 bits whose exponent is not above `k` in absolute value, has this
value. -/
inductive Denotes (k : ℕ) : UnpackedFloat → ℚ → Prop
  | zero (s : Sign) : Denotes k (.zero s) 0
  | finite {s : Sign} {m : ℕ} {e : ℤ} (hm : 0 < m) (hlow : 2 ^ 52 ≤ m) (hhigh : m < 2 ^ 53) (he : |e| ≤ k) :
      Denotes k (.finite s m e hm) ((s.apply m : ℤ) * 2 ^ e)

section Rounding
variable {s : Sign} {m n k : ℕ} {e : ℤ} {accuracy : Accuracy} {t : ℚ}

/-- Far from the least exponent, 53 bits are kept. -/
theorem targetExponent_eq {total : ℤ} (h : -1021 ≤ total) : Format.binary64.targetExponent total = total - 53 := by
  have hmin : Format.binary64.minExponent = -1074 := rfl
  have hbits : Format.binary64.mantissaBits = 53 := rfl
  rw [Format.targetExponent, hmin, hbits]
  omega

private theorem shiftToTargetExponent_eq (hlog : m.log2 = 52 + n) (he : -1074 ≤ e + n) (accuracy : Accuracy) :
    shiftToTargetExponent .binary64 m e accuracy =
      (ExtendedMantissa.ofMantissaAndAccuracy m accuracy >>> n, e + n) := by
  have htotal : totalExponent m e = e + n + 53 := by
    rw [totalExponent, hlog]
    omega
  have hshift : (e + n - e).toNat = n := by omega
  unfold shiftToTargetExponent
  dsimp only
  rw [htotal, targetExponent_eq (by omega), add_sub_cancel_right]
  unfold shiftToExponent
  dsimp only
  rw [hshift]

/-- A rounded significand has 53 bits, or it is the next power of two, which is halved. -/
private theorem exists_shifted {r : ℕ} {T : ℤ} (hlow : 2 ^ 52 ≤ r) (hhigh : r ≤ 2 ^ 53) (hT : -1074 ≤ T) :
    ∃ (em : ExtendedMantissa) (e : ℤ), shiftToTargetExponent .binary64 r T .exact = (em, e) ∧ 2 ^ 52 ≤ em.mantissa ∧
      em.mantissa < 2 ^ 53 ∧ T ≤ e ∧ e ≤ T + 1 ∧ (em.mantissa * 2 ^ e : ℚ) = r * 2 ^ T := by
  rcases hhigh.lt_or_eq with hlt | rfl
  · have hlog : r.log2 = 52 + 0 := (Nat.log2_eq_iff (by omega)).mpr ⟨hlow, hlt⟩
    rw [shiftToTargetExponent_eq hlog (by rwa [Nat.cast_zero, add_zero]), Nat.cast_zero, add_zero]
    exact ⟨_, T, rfl, hlow, hlt, le_rfl, by omega, rfl⟩
  · have hlog : (2 ^ 53).log2 = 52 + 1 := Nat.log2_two_pow
    rw [shiftToTargetExponent_eq hlog (by omega)]
    refine ⟨_, T + 1, rfl, le_rfl, (by norm_num : 2 ^ 52 < 2 ^ 53), by omega, le_rfl, ?_⟩
    change ((2 ^ 52 : ℕ) * 2 ^ (T + 1) : ℚ) = _
    rw [zpow_add_one₀ two_ne_zero]
    push_cast
    ring

private theorem mantissa_ofMantissaAndAccuracy (m : ℕ) (accuracy : Accuracy) :
    (ExtendedMantissa.ofMantissaAndAccuracy m accuracy).mantissa = m := by
  rcases accuracy with _ | ordering
  · rfl
  · cases ordering <;> rfl

/-- In units of the last of its first 53 bits, a significand has 53 bits left of the point. -/
private theorem significand_range (ht : Represents (.ofMantissaAndAccuracy m accuracy) t) (hlog : m.log2 = 52 + n) :
    2 ^ 52 ≤ t / 2 ^ n ∧ t / 2 ^ n < 2 ^ 53 := by
  have hm : m ≠ 0 := by
    rintro rfl
    rw [Nat.log2_zero] at hlog
    omega
  have hpow : (0 : ℚ) < 2 ^ n := pow_pos two_pos n
  obtain ⟨hlow, hhigh⟩ := (Nat.log2_eq_iff hm).mp hlog
  have hhigh' : ((m + 1 : ℕ) : ℚ) ≤ (2 ^ (52 + n + 1) : ℕ) := Nat.cast_le.mpr (Nat.succ_le_of_lt hhigh)
  have hlow' : ((2 ^ (52 + n) : ℕ) : ℚ) ≤ m := Nat.cast_le.mpr hlow
  have hle := ht.mantissa_le
  have hlt := ht.lt_mantissa_add_one
  rw [mantissa_ofMantissaAndAccuracy] at hle hlt
  push_cast at hhigh' hlow'
  rw [le_div_iff₀ hpow, div_lt_iff₀ hpow]
  constructor
  · rw [← pow_add]
    exact hlow'.trans hle
  · rw [← pow_add, show 53 + n = 52 + n + 1 by omega]
    exact hlt.trans_le hhigh'

/-- A significand with 53 bits or more and with the accuracy that it has is rounded to 53 bits. -/
theorem denotes_roundWithAccuracy (ht : Represents (.ofMantissaAndAccuracy m accuracy) t) (hlog : m.log2 = 52 + n)
    (he : |e + n| < k) (hk : k ≤ 1074) :
    ∃ y, Rounds (t * 2 ^ e) y ∧ Denotes k (roundWithAccuracy .binary64 s m e accuracy) ((s.apply 1 : ℤ) * y) := by
  obtain ⟨helow, hehigh⟩ := abs_lt.mp he
  obtain ⟨hrange, hrange'⟩ := significand_range ht hlog
  have hem := ht.shiftRight n
  have hshift := shiftToTargetExponent_eq hlog (e := e) (by omega) accuracy
  generalize ExtendedMantissa.ofMantissaAndAccuracy m accuracy >>> n = em at hem hshift
  obtain ⟨hoff, hlow, hhigh⟩ := hem.roundedMantissa
  have hlow' : 2 ^ 52 < em.mantissa + 1 := by exact_mod_cast hrange.trans_lt hem.lt_mantissa_add_one
  have hhigh' : em.mantissa < 2 ^ 53 := by exact_mod_cast hem.mantissa_le.trans_lt hrange'
  obtain ⟨em', e', hshift', hmlow, hmhigh, helow', hehigh', hvalue⟩ :=
    exists_shifted (r := em.roundedMantissa) (T := e + n) (by omega) (by omega) (by omega)
  have hunit : (0 : ℚ) < 2 ^ (e + n) := zpow_pos two_pos _
  have hunits : t * 2 ^ e = t / 2 ^ n * 2 ^ (e + n) := by
    rw [zpow_add₀ two_ne_zero, zpow_natCast]
    field_simp
  refine ⟨em.roundedMantissa * 2 ^ (e + n), .units ?_ (by omega) (by omega) ?_, ?_⟩
  · rw [hunits]
    exact mul_le_mul_of_nonneg_right hrange hunit.le
  · rw [hunits, ← sub_mul, abs_mul, abs_of_pos hunit]
    linarith [mul_le_mul_of_nonneg_right hoff hunit.le]
  · have hpos : 0 < em'.mantissa := by omega
    have hround : roundWithAccuracy .binary64 s m e accuracy = .finite s em'.mantissa e' hpos := by
      unfold roundWithAccuracy
      rw [hshift]
      dsimp only
      rw [hshift']
      dsimp only
      rw [dif_neg hpos.ne']
    have happly : ((s.apply em'.mantissa : ℤ) * 2 ^ e' : ℚ) = (s.apply 1 : ℤ) * (em.roundedMantissa * 2 ^ (e + n)) := by
      rw [← hvalue, ← mul_assoc]
      cases s <;> simp [Sign.apply]
    rw [hround, ← happly]
    exact .finite hpos hmlow hmhigh (abs_le.mpr (by omega))

theorem log2_shiftLeft (hm : m ≠ 0) (j : ℕ) : (m <<< j).log2 = m.log2 + j := by
  obtain ⟨hlow, hhigh⟩ := (Nat.log2_eq_iff hm).mp rfl
  rw [Nat.shiftLeft_eq, Nat.log2_eq_iff (Nat.mul_ne_zero hm (by positivity)), pow_add, Nat.add_right_comm, pow_add]
  exact ⟨Nat.mul_le_mul_right _ hlow, Nat.mul_lt_mul_of_pos_right hhigh (by positivity)⟩

/-- Smaller units make no difference to the value. -/
theorem shiftLeft_mul_zpow (m j : ℕ) (e : ℤ) : ((m <<< j : ℕ) * 2 ^ (e - j) : ℚ) = m * 2 ^ e := by
  rw [Nat.shiftLeft_eq, Nat.cast_mul, Nat.cast_pow, Nat.cast_ofNat, mul_assoc, ← zpow_natCast,
    ← zpow_add₀ two_ne_zero, add_sub_cancel]

/-- A whole number of units is rounded to 53 bits. -/
theorem denotes_round (hm : 0 < m) (he : |e + m.log2 - 52| < k) (hk : k ≤ 1074) :
    ∃ y, Rounds (m * 2 ^ e) y ∧ Denotes k (UnpackedFloat.round .binary64 s m e) ((s.apply 1 : ℤ) * y) := by
  obtain ⟨helow, hehigh⟩ := abs_lt.mp he
  have htarget : Format.binary64.targetExponent (totalExponent m e) = e + m.log2 - 52 := by
    rw [totalExponent, targetExponent_eq (by omega)]
    omega
  have hround : UnpackedFloat.round .binary64 s m e =
      roundWithAccuracy .binary64 s (m <<< (52 - m.log2)) (e - (52 - m.log2 : ℕ)) .exact := by
    have hshift : (e - (e + m.log2 - 52)).toNat = 52 - m.log2 := by omega
    unfold UnpackedFloat.round decreaseExponent
    rw [htarget]
    dsimp only
    rw [hshift]
  have hlog := log2_shiftLeft hm.ne' (52 - m.log2)
  have hexact : Represents (.ofMantissaAndAccuracy (m <<< (52 - m.log2)) .exact) (m <<< (52 - m.log2) : ℕ) := .exact _
  obtain ⟨y, hy, hdenotes⟩ := denotes_roundWithAccuracy (s := s) (n := m.log2 - 52) (k := k)
    (e := e - (52 - m.log2 : ℕ)) hexact (by omega) (abs_lt.mpr (by omega)) hk
  rw [shiftLeft_mul_zpow] at hy
  rw [hround]
  exact ⟨y, hy, hdenotes⟩

end Rounding

end WeightedCnf.Binary64

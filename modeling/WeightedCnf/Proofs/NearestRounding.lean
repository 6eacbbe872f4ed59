import WeightedCnf.Proofs.DoubleArithmetic
import WeightedCnf.Proofs.RoundingOrder

/-! Rounding to the nearer of two fractions compares doubles. It finds the nearer one as long as the denominators are
not too large for doubles, and one that is hardly farther otherwise. -/
namespace WeightedCnf.Weight
open Binary64
variable {w : Weight} {denom n m : Int64} {bits : ℕ}

def distance (w : Weight) (denom : Int64) (rounding : Rounding) : ℚ :=
  |(w.round denom rounding).rat - w.rat|

section Doubles

/-- Doubles have enough bits for the fractions whose denominators divide two to the 53. -/
private theorem isRepresentable_of_mul_eq (hnum : 0 < w.num.toInt) (hlt : w.num.toInt < w.denom.toInt)
    (h : w.denom.toInt * 2 ^ bits = 2 ^ 53) : IsRepresentable w.rat := by
  have hpow : (2 ^ bits : ℚ) ≠ 0 := pow_ne_zero _ two_ne_zero
  have hdenom : (w.denom.toInt * 2 ^ bits : ℚ) = 2 ^ 53 := by exact_mod_cast h
  have hnumerator : |w.num.toInt * 2 ^ bits| ≤ 2 ^ 53 := by
    rw [abs_of_pos (by positivity), ← h]
    exact mul_le_mul_of_nonneg_right hlt.le (by positivity)
  have hscaled : w.rat = (w.num.toInt * 2 ^ bits : ℤ) / 2 ^ 53 := by
    rw [Weight.rat, ← mul_div_mul_right _ _ hpow, hdenom, Int.cast_mul, Int.cast_pow, Int.cast_ofNat]
  rw [hscaled]
  exact (IsRepresentable.intCast hnumerator).div_pow 53

/-- The double of a positive weight is rounded three times, but only once when both components are doubles. -/
theorem exists_value (hnum : 0 < w.num.toInt) (hdenom : 0 < w.denom.toInt) :
    ∃ v, HasValue 158 w.value v ∧ 0 < v ∧ |v - w.rat| ≤ 4 * (w.rat / 2 ^ 53) ∧
      (w.num.toInt ≤ 2 ^ 53 → w.denom.toInt ≤ 2 ^ 53 → Rounds w.rat v) := by
  obtain ⟨a, ha, hnumValue⟩ := hasValue_ofInt hnum w.num.toInt_lt
  obtain ⟨c, hc, hdenomValue⟩ := hasValue_ofInt hdenom w.denom.toInt_lt
  have hnum' : (0 : ℚ) < w.num.toInt := Int.cast_pos.mpr hnum
  have hdenom' : (0 : ℚ) < w.denom.toInt := Int.cast_pos.mpr hdenom
  have hapos := ha.pos_right hnum'
  have hcpos := hc.pos_right hdenom'
  obtain ⟨v, hv, hvalue⟩ := hnumValue.div hdenomValue hapos hcpos (by norm_num)
  refine ⟨v, hvalue, hv.pos_right (div_pos hapos hcpos), ha.abs_div_sub_le hc hv hnum' hdenom', ?_⟩
  intro hnumBits hdenomBits
  rw [ha.eq_self (.intCast (by rwa [abs_of_pos hnum])), hc.eq_self (.intCast (by rwa [abs_of_pos hdenom]))] at hv
  exact hv

/-- Only the numerator of a dyadic fraction has to be rounded. -/
private theorem exists_value_dyadic (hn : 0 < n.toInt) (hdenom : denom.toInt = 2 ^ bits) :
    ∃ v, HasValue 158 (⟨n, denom⟩ : Weight).value v ∧ 0 < v ∧ Rounds (⟨n, denom⟩ : Weight).rat v := by
  have hdenomPos : 0 < denom.toInt := by
    rw [hdenom]
    positivity
  obtain ⟨a, ha, hnumValue⟩ := hasValue_ofInt hn n.toInt_lt
  obtain ⟨c, hc, hdenomValue⟩ := hasValue_ofInt hdenomPos denom.toInt_lt
  have hcast : (denom.toInt : ℚ) = 2 ^ bits := by rw [hdenom, Int.cast_pow, Int.cast_ofNat]
  have hpow : IsRepresentable (denom.toInt : ℚ) :=
    ⟨1, bits, by norm_num, by rw [hcast, Int.cast_one, one_mul, zpow_natCast]⟩
  rw [hc.eq_self hpow] at hdenomValue
  have hapos := ha.pos_right (Int.cast_pos.mpr hn)
  obtain ⟨v, hv, hvalue⟩ := hnumValue.div hdenomValue hapos (Int.cast_pos.mpr hdenomPos) (by norm_num)
  have hquotient : Rounds (⟨n, denom⟩ : Weight).rat (a / denom.toInt) := by
    rw [Weight.rat, hcast]
    exact ha.div_pow bits
  rw [hv.eq_self hquotient.isRepresentable] at hvalue
  exact ⟨_, hvalue, div_pos hapos (Int.cast_pos.mpr hdenomPos), hquotient⟩

end Doubles

/-- The weight lies between the fractions of two consecutive numerators, and these are what rounding down and rounding
up give. -/
structure Between (w : Weight) (denom n m : Int64) : Prop where
  roundDown : w.roundDown denom = ⟨n, denom⟩
  roundUp : w.roundUp denom = ⟨m, denom⟩
  range : 1 ≤ n.toInt ∧ m.toInt = n.toInt + 1 ∧ m.toInt < denom.toInt
  le : (⟨n, denom⟩ : Weight).rat ≤ w.rat
  ge : w.rat ≤ (⟨m, denom⟩ : Weight).rat

/-- Rounding down and rounding up agree, or they give the fractions on both sides of the weight. -/
theorem roundDown_eq_or_between (hnum : 0 < w.num.toInt) (hlt : w.num.toInt < w.denom.toInt) (hD : 2 ≤ denom.toInt) :
    w.roundDown denom = w.roundUp denom ∨ ∃ n m, Between w denom n m := by
  obtain ⟨n, hdown, hn⟩ := roundDown_interior hnum hlt hD
  obtain ⟨m, hup, hm⟩ := roundUp_interior hnum hlt hD
  have hD' : (0 : ℚ) < denom.toInt := Int.cast_pos.mpr (by omega)
  obtain ⟨hpos, hbelow⟩ := rat_mul_between hnum hlt hD
  have hfloorLt : ⌊w.rat * denom.toInt⌋ < denom.toInt := Int.floor_lt.mpr hbelow
  have hceilPos : 0 < ⌈w.rat * denom.toInt⌉ := Int.ceil_pos.mpr hpos
  have hfloorLe := Int.floor_le_ceil (w.rat * denom.toInt)
  have hgap := Int.ceil_le_floor_add_one (w.rat * denom.toInt)
  by_cases hsame : n.toInt = m.toInt
  · left
    rw [hdown, hup, Int64.toInt_inj.mp hsame]
  · right
    have hn' : n.toInt = ⌊w.rat * denom.toInt⌋ := by omega
    have hm' : m.toInt = ⌈w.rat * denom.toInt⌉ := by omega
    refine ⟨n, m, hdown, hup, by omega, (div_le_iff₀ hD').mpr ?_, (le_div_iff₀ hD').mpr ?_⟩
    · rw [hn']
      exact Int.floor_le _
    · rw [hm']
      exact Int.le_ceil _

/-- The numbers that rounding to the nearer computes with: the doubles `l` and `u` of the fractions below and above and
`v` of the weight, and their distances as they are rounded. -/
structure Comparison (w : Weight) (denom n m : Int64) (l u v down up : ℚ) : Prop where
  lower : Rounds (⟨n, denom⟩ : Weight).rat l
  upper : Rounds (⟨m, denom⟩ : Weight).rat u
  value : |v - w.rat| ≤ 4 * (w.rat / 2 ^ 53)
  value_of_small : w.denom.toInt ≤ 2 ^ 53 → Rounds w.rat v
  below : Rounds |l - v| down
  above : Rounds |u - v| up
  near : w.round denom .near = if down < up then w.round denom .down else w.round denom .up

private theorem Between.exists_comparison (h : Between w denom n m) (hnum : 0 < w.num.toInt)
    (hlt : w.num.toInt < w.denom.toInt) (hdenom : denom.toInt = 2 ^ bits) :
    ∃ l u v down up, Comparison w denom n m l u v down up := by
  obtain ⟨hpos, hsucc, -⟩ := h.range
  obtain ⟨v, hv, hvpos, hoff, hsmall⟩ := exists_value hnum (hnum.trans hlt)
  obtain ⟨l, hl, hlpos, hlower⟩ := exists_value_dyadic hpos hdenom
  obtain ⟨u, hu, hupos, hupper⟩ := exists_value_dyadic (n := m) (by omega) hdenom
  obtain ⟨z, hz, hdown⟩ := hl.sub hv hlpos hvpos (by norm_num)
  obtain ⟨z', hz', hup⟩ := hu.sub hv hupos hvpos (by norm_num)
  have hiff := (hdown.abs (by norm_num)).lt_iff (hup.abs (by norm_num)) (abs_nonneg z) (abs_nonneg z')
  refine ⟨l, u, v, |z|, |z'|, hlower, hupper, hoff, fun hdenom' => hsmall (by omega) hdenom', hz, hz', ?_⟩
  rw [round, round, round, roundNear, if_neg (hnum.trans hlt).not_ge, h.roundDown, h.roundUp]
  exact if_congr hiff rfl rfl

namespace Between
variable (h : Between w denom n m)
include h

private theorem denom_pos : (0 : ℚ) < denom.toInt := by
  have hrange := h.range
  exact Int.cast_pos.mpr (by omega)

private theorem rat_add_rat :
    (⟨n, denom⟩ : Weight).rat + (⟨m, denom⟩ : Weight).rat = (2 * n.toInt + 1 : ℤ) / denom.toInt := by
  rw [Weight.rat, Weight.rat, ← add_div, h.range.2.1]
  push_cast
  ring

private theorem upper_le : (⟨m, denom⟩ : Weight).rat ≤ 2 * (⟨n, denom⟩ : Weight).rat := by
  have hrange := h.range
  have hle : (m.toInt : ℚ) ≤ 2 * n.toInt := by exact_mod_cast (by omega : m.toInt ≤ 2 * n.toInt)
  rw [Weight.rat, Weight.rat, ← mul_div_assoc]
  exact div_le_div_of_nonneg_right hle h.denom_pos.le

private theorem distance_down : w.distance denom .down = w.rat - (⟨n, denom⟩ : Weight).rat := by
  rw [distance, round, h.roundDown, abs_sub_comm, abs_of_nonneg (sub_nonneg.mpr h.le)]

private theorem distance_up : w.distance denom .up = (⟨m, denom⟩ : Weight).rat - w.rat := by
  rw [distance, round, h.roundUp, abs_of_nonneg (sub_nonneg.mpr h.ge)]

section Representable
variable (hD : denom.toInt = 2 ^ bits) (hbits : bits ≤ 52)
include hD hbits

private theorem isRepresentable_rat {k : Int64} (h0 : n.toInt ≤ k.toInt) (hk : k.toInt ≤ m.toInt) :
    IsRepresentable (⟨k, denom⟩ : Weight).rat := by
  have hpow : (2 : ℤ) ^ bits ≤ 2 ^ 52 := pow_le_pow_right₀ one_le_two hbits
  have hrange := h.range
  have hk' : |k.toInt| ≤ 2 ^ 53 := abs_le.mpr (by omega)
  rw [Weight.rat, hD, Int.cast_pow, Int.cast_ofNat]
  exact (IsRepresentable.intCast hk').div_pow bits

private theorem isRepresentable_lower : IsRepresentable (⟨n, denom⟩ : Weight).rat :=
  h.isRepresentable_rat hD hbits le_rfl (h.range.2.1 ▸ (lt_add_one _).le)

private theorem isRepresentable_upper : IsRepresentable (⟨m, denom⟩ : Weight).rat :=
  h.isRepresentable_rat hD hbits (h.range.2.1 ▸ (lt_add_one _).le) le_rfl

private theorem isRepresentable_middle :
    IsRepresentable (((⟨n, denom⟩ : Weight).rat + (⟨m, denom⟩ : Weight).rat) / 2) := by
  have hpow : (2 : ℤ) ^ bits ≤ 2 ^ 52 := pow_le_pow_right₀ one_le_two hbits
  have hrange := h.range
  have hodd : |2 * n.toInt + 1| ≤ 2 ^ 53 := abs_le.mpr (by omega)
  rw [h.rat_add_rat, hD, Int.cast_pow, Int.cast_ofNat, div_div, ← pow_succ]
  exact (IsRepresentable.intCast hodd).div_pow (bits + 1)

end Representable

/-- A weight below the middle is below it by half of a unit of the product of both denominators or more. -/
private theorem add_unit_le (hdenom : 0 < w.denom.toInt)
    (hlt : 2 * w.rat < (⟨n, denom⟩ : Weight).rat + (⟨m, denom⟩ : Weight).rat) :
    2 * w.rat + 1 / (w.denom.toInt * denom.toInt) ≤ (⟨n, denom⟩ : Weight).rat + (⟨m, denom⟩ : Weight).rat := by
  have hd : (0 : ℚ) < w.denom.toInt := Int.cast_pos.mpr hdenom
  have hD := h.denom_pos
  rw [h.rat_add_rat, Weight.rat, ← mul_div_assoc, div_lt_div_iff₀ hd hD] at hlt
  have hunits : 2 * w.num.toInt * denom.toInt + 1 ≤ (2 * n.toInt + 1) * w.denom.toInt := by exact_mod_cast hlt
  have hunits' : (2 * w.num.toInt * denom.toInt + 1 : ℚ) ≤ (2 * n.toInt + 1 : ℤ) * w.denom.toInt := by
    exact_mod_cast hunits
  rw [h.rat_add_rat, Weight.rat, ← mul_div_assoc, div_add_div _ _ hd.ne' (mul_pos hd hD).ne',
    div_le_div_iff₀ (mul_pos hd (mul_pos hd hD)) hD]
  have hscaled := mul_le_mul_of_nonneg_left hunits' (mul_pos hd hD).le
  linarith

end Between

/-- When the rounded distance to `p` is not larger than that to `q`, the exact one is not much larger. -/
private theorem abs_sub_le_of_rounded_le {x v p q p' q' a b : ℚ} (hp : Rounds p p') (hq : Rounds q q')
    (hv : |v - x| ≤ 4 * (x / 2 ^ 53)) (ha : Rounds |p' - v| a) (hb : Rounds |q' - v| b) (hab : a ≤ b)
    (hpx : p ≤ 2 * x) (hqx : q ≤ 2 * x) : |p - x| ≤ |q - x| + x / 2 ^ 49 := by
  have hbound {r r' : ℚ} (hr : Rounds r r') (hrx : r ≤ 2 * x) :
      |r - x| ≤ x ∧ |r - x| ≤ |r' - v| + 6 * (x / 2 ^ 53) ∧ |r' - v| ≤ |r - x| + 6 * (x / 2 ^ 53) := by
    have hoff := hr.abs_sub_le
    have h0 := hr.nonneg_left
    refine ⟨abs_le.mpr ⟨by linarith, by linarith⟩, ?_, ?_⟩
    · linarith [abs_sub_le r r' x, abs_sub_le r' v x]
    · linarith [abs_sub_le r' r v, abs_sub_le r x v, abs_sub_comm r r', abs_sub_comm v x]
  obtain ⟨hpx', hp1, hp2⟩ := hbound hp hpx
  obtain ⟨hqx', hq1, hq2⟩ := hbound hq hqx
  obtain ⟨-, ha'⟩ := abs_le.mp ha.abs_sub_le
  obtain ⟨hb', -⟩ := abs_le.mp hb.abs_sub_le
  linarith

namespace Comparison
variable {l u v down up : ℚ} (hc : Comparison w denom n m l u v down up) (h : Between w denom n m)
include hc h

/-- Rounding to the nearer moves the weight hardly farther than rounding to the other side would. -/
private theorem distance_near_le :
    w.distance denom .near ≤ min (w.distance denom .down) (w.distance denom .up) + w.rat / 2 ^ 49 := by
  have hx : 0 ≤ w.rat := hc.lower.nonneg_left.trans h.le
  have hlower : (⟨n, denom⟩ : Weight).rat ≤ 2 * w.rat := h.le.trans (by linarith)
  have hupper : (⟨m, denom⟩ : Weight).rat ≤ 2 * w.rat := h.upper_le.trans (by linarith [h.le])
  have hpos : 0 ≤ w.rat / 2 ^ 49 := by positivity
  rw [← min_add_add_right, le_min_iff]
  unfold distance
  rw [hc.near]
  split
  · rename_i hlt
    refine ⟨le_add_of_nonneg_right hpos, ?_⟩
    rw [round, round, h.roundDown, h.roundUp]
    exact abs_sub_le_of_rounded_le hc.lower hc.upper hc.value hc.below hc.above hlt.le hlower hupper
  · rename_i hge
    refine ⟨?_, le_add_of_nonneg_right hpos⟩
    rw [round, round, h.roundDown, h.roundUp]
    exact abs_sub_le_of_rounded_le hc.upper hc.lower hc.value hc.above hc.below (not_lt.mp hge) hupper hlower

section Exact
variable (hD : denom.toInt = 2 ^ bits) (hbits : bits ≤ 52) (hdenom : w.denom.toInt ≤ 2 ^ 53)
include hD hbits hdenom

/-- The distances of few bits from the double of the weight are not rounded. -/
private theorem down_lt_up_iff : down < up ↔ 2 * v < (⟨n, denom⟩ : Weight).rat + (⟨m, denom⟩ : Weight).rat := by
  have hlower := h.isRepresentable_lower hD hbits
  have hupper := h.isRepresentable_upper hD hbits
  have hv := hc.value_of_small hdenom
  have hlow := hv.ge_of_ge hlower h.le
  have hhigh := hv.le_of_le hupper h.ge
  have htwice := h.upper_le
  have hdown := hc.below
  have hup := hc.above
  rw [hc.lower.eq_self hlower, abs_sub_comm, abs_of_nonneg (sub_nonneg.mpr hlow)] at hdown
  rw [hc.upper.eq_self hupper, abs_of_nonneg (sub_nonneg.mpr hhigh)] at hup
  rw [hdown.eq_self (hv.isRepresentable.sub hlower hlow (by linarith)),
    hup.eq_self (hupper.sub hv.isRepresentable hhigh (by linarith))]
  constructor <;> intro <;> linarith

private theorem near_eq_up (hle : w.distance denom .up ≤ w.distance denom .down) :
    w.round denom .near = w.round denom .up := by
  rw [h.distance_up, h.distance_down] at hle
  have hmiddle := (hc.value_of_small hdenom).ge_of_ge (h.isRepresentable_middle hD hbits) (by linarith)
  rw [hc.near, if_neg]
  rw [hc.down_lt_up_iff h hD hbits hdenom]
  linarith

end Exact

/-- The fraction below is chosen when it is nearer, as long as both denominators have few bits together. -/
private theorem near_eq_down (hnum : 0 < w.num.toInt) (hlt : w.num.toInt < w.denom.toInt) (hD : denom.toInt = 2 ^ bits)
    (hproduct : w.denom.toInt * 2 ^ bits ≤ 2 ^ 53) (hle : w.distance denom .down < w.distance denom .up) :
    w.round denom .near = w.round denom .down := by
  have hone : (1 : ℤ) ≤ 2 ^ bits := one_le_pow₀ one_le_two
  have hdenom : w.denom.toInt ≤ 2 ^ 53 := by nlinarith
  have hbits : bits ≤ 52 := by
    have hlt' : (2 : ℤ) ^ bits < 2 ^ 53 := by nlinarith
    exact Nat.le_of_lt_succ ((pow_lt_pow_iff_right₀ one_lt_two).mp hlt')
  have hv := hc.value_of_small hdenom
  rw [h.distance_up, h.distance_down] at hle
  rw [hc.near, if_pos]
  rw [hc.down_lt_up_iff h hD hbits hdenom]
  rcases hproduct.lt_or_eq with hless | hequal
  · have hgap := h.add_unit_le (hnum.trans hlt) (by linarith)
    have hsmall : (w.denom.toInt * denom.toInt : ℚ) < 2 ^ 53 := by
      rw [hD]
      exact_mod_cast hless
    have hrange : w.rat < 1 := (div_lt_one (Int.cast_pos.mpr (hnum.trans hlt))).mpr (Int.cast_lt.mpr hlt)
    have hunit : (1 : ℚ) / 2 ^ 53 < 1 / (w.denom.toInt * denom.toInt) :=
      one_div_lt_one_div_of_lt (mul_pos (Int.cast_pos.mpr (hnum.trans hlt)) h.denom_pos) hsmall
    obtain ⟨hoff, -⟩ := abs_le.mp (hv.abs_sub_le_of_lt_one hrange)
    linarith
  · -- The weight itself is a double.
    rw [hv.eq_self (isRepresentable_of_mul_eq hnum hlt hequal)]
    linarith

end Comparison

/-- Rounding to the nearer gives the fraction below or the one above, and it moves a weight strictly between zero and
one hardly farther than the better of these does: by at most one part in two to the 49 more. When the components of the
weight and the numerators are doubles, it rounds up unless the fraction below is nearer; and when both denominators
have few bits together, it finds the nearer fraction. -/
theorem round_near (hD : denom.toInt = 2 ^ bits) (hbits : 1 ≤ bits) (hnum : 0 < w.num.toInt)
    (hlt : w.num.toInt < w.denom.toInt) :
    (w.round denom .near = w.round denom .down ∨ w.round denom .near = w.round denom .up) ∧
    w.distance denom .near ≤ min (w.distance denom .down) (w.distance denom .up) + w.rat / 2 ^ 49 ∧
    (w.denom.toInt ≤ 2 ^ 53 → bits ≤ 52 → w.distance denom .up ≤ w.distance denom .down →
      w.round denom .near = w.round denom .up) ∧
    (w.denom.toInt * 2 ^ bits ≤ 2 ^ 53 → w.distance denom .down < w.distance denom .up →
      w.round denom .near = w.round denom .down) := by
  have hD' : 2 ≤ denom.toInt := by
    rw [hD]
    exact le_self_pow₀ one_le_two (by omega)
  refine ⟨round_eq_or w denom .near, ?_⟩
  rcases roundDown_eq_or_between hnum hlt hD' with hsame | ⟨n, m, hbetween⟩
  · have hup : w.round denom .near = w.round denom .up := (round_eq_or w denom .near).elim (·.trans hsame) id
    have hrat : 0 ≤ w.rat := (div_pos (Int.cast_pos.mpr hnum) (Int.cast_pos.mpr (hnum.trans hlt))).le
    have hdown : w.round denom .near = w.round denom .down := hup.trans hsame.symm
    refine ⟨?_, fun _ _ _ => hup, fun _ _ => hdown⟩
    rw [distance, distance, distance, ← hdown, ← hup, min_self]
    exact le_add_of_nonneg_right (by positivity)
  · obtain ⟨l, u, v, down, up, hcomparison⟩ := hbetween.exists_comparison hnum hlt hD
    exact ⟨hcomparison.distance_near_le hbetween,
      fun hdenom hfew => hcomparison.near_eq_up hbetween hD hfew hdenom,
      hcomparison.near_eq_down hbetween hnum hlt hD⟩

/-- Three tenths are nearer to two eighths than to three. -/
theorem round_near_tenths : (8 : Int64).toInt = 2 ^ 3 ∧ 1 ≤ 3 ∧ 0 < (⟨3, 10⟩ : Weight).num.toInt ∧
    (⟨3, 10⟩ : Weight).num.toInt < (⟨3, 10⟩ : Weight).denom.toInt ∧
    (⟨3, 10⟩ : Weight).distance 8 .near ≤
      min ((⟨3, 10⟩ : Weight).distance 8 .down) ((⟨3, 10⟩ : Weight).distance 8 .up) +
        (⟨3, 10⟩ : Weight).rat / 2 ^ 49 ∧
    (⟨3, 10⟩ : Weight).distance 8 .down < (⟨3, 10⟩ : Weight).distance 8 .up ∧
    (⟨3, 10⟩ : Weight).round 8 .near = ⟨2, 8⟩ := by
  have hD : (8 : Int64).toInt = 2 ^ 3 := by decide
  have hnum : 0 < (⟨3, 10⟩ : Weight).num.toInt := by decide
  have hlt : (⟨3, 10⟩ : Weight).num.toInt < (⟨3, 10⟩ : Weight).denom.toInt := by decide
  have hdown : (⟨3, 10⟩ : Weight).round 8 .down = ⟨2, 8⟩ := by decide
  have hcloser : (⟨3, 10⟩ : Weight).distance 8 .down < (⟨3, 10⟩ : Weight).distance 8 .up := by decide +kernel
  obtain ⟨-, hbound, -, hnear⟩ := round_near hD (by decide) hnum hlt
  exact ⟨hD, by decide, hnum, hlt, hbound, hcloser, (hnear (by decide) hcloser).trans hdown⟩

/-- Four fifths are nearer to the fraction below, but the double of four fifths is in the middle. -/
theorem round_near_fifths : (2 ^ 51 : Int64).toInt = 2 ^ 51 ∧
    (⟨4, 5⟩ : Weight).distance (2 ^ 51) .down < (⟨4, 5⟩ : Weight).distance (2 ^ 51) .up ∧
    (⟨4, 5⟩ : Weight).round (2 ^ 51) .near = (⟨4, 5⟩ : Weight).round (2 ^ 51) .up ∧
    (⟨4, 5⟩ : Weight).round (2 ^ 51) .up ≠ (⟨4, 5⟩ : Weight).round (2 ^ 51) .down := by
  decide +kernel

end WeightedCnf.Weight

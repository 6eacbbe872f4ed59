import Mathlib.Data.Rat.Floor
import WeightedCnf.Proofs.Weights

/-! Rounding leaves a weight between zero and one strictly between them and moves it by less than one unit. Rounding
down and rounding up keep the order of weights. -/
namespace WeightedCnf.Weight
variable {w s : Weight} {d n : ℤ} {denom : Int64} {q : ℚ}

/-- The number itself, but one instead of zero. -/
def raised (n : ℤ) : ℤ := if n = 0 then 1 else n

/-- The number itself, but one less instead of `d`. -/
def lowered (d n : ℤ) : ℤ := if n = d then n - 1 else n

private theorem raised_le_raised {m : ℤ} (h : m ≤ n) : raised m ≤ raised n := by
  unfold raised
  split <;> split <;> omega

private theorem lowered_le_lowered {m : ℤ} (h : m ≤ n) : lowered d m ≤ lowered d n := by
  unfold lowered
  split <;> split <;> omega

private theorem raised_of_nonneg (h : 0 ≤ n) : raised n = max 1 n := by
  unfold raised
  split <;> omega

private theorem lowered_of_le (h : n ≤ d) : lowered d n = min (d - 1) n := by
  unfold lowered
  split <;> omega

private theorem floor_rat_mul (hd : 0 < w.denom.toInt) (d : ℤ) : ⌊w.rat * d⌋ = w.num.toInt * d / w.denom.toInt := by
  have hd' : (0 : ℚ) < w.denom.toInt := Int.cast_pos.mpr hd
  rw [rat, div_mul_eq_mul_div, Int.floor_eq_iff, le_div_iff₀ hd', div_lt_iff₀ hd']
  constructor
  · exact_mod_cast Int.ediv_mul_le _ hd.ne'
  · exact_mod_cast Int.lt_ediv_add_one_mul_self _ hd

private theorem numeratorBelow_eq_raised (hd : 0 < w.denom.toInt) (d : ℤ) :
    w.numeratorBelow d = raised ⌊w.rat * d⌋ := by
  rw [floor_rat_mul hd]
  rfl

private theorem numeratorAbove_eq_lowered (hd : 0 < w.denom.toInt) (d : ℤ) :
    w.numeratorAbove d = lowered d ⌈w.rat * d⌉ := by
  have hfloor := floor_rat_mul hd (-d)
  rw [Int.cast_neg, mul_neg, Int.floor_neg, mul_neg] at hfloor
  unfold numeratorAbove lowered
  dsimp only
  rw [← hfloor, neg_neg]

section Components
variable (hD : 0 < denom.toInt)
include hD

private theorem isValid_ofNumerator : (ofNumerator n denom).isValid = true ↔ -2 ^ 63 ≤ n ∧ n < 2 ^ 63 := by
  have hlargest : largest = 2 ^ 63 - 1 := rfl
  unfold ofNumerator component?
  split
  · rename_i c hc
    rw [Option.ite_none_right_eq_some] at hc
    simp only [isValid_iff]
    omega
  · rename_i hc
    rw [ite_eq_right_iff] at hc
    constructor
    · exact (nomatch ·)
    · intro h
      cases hc (by omega)

private theorem rat_ofNumerator (h : (ofNumerator n denom).isValid = true) :
    (ofNumerator n denom).rat = n / denom.toInt := by
  obtain ⟨hlow, hhigh⟩ := (isValid_ofNumerator hD).mp h
  obtain ⟨c, hc, rfl⟩ := component?_eq hlow hhigh
  rw [ofNumerator, hc]
  rfl

private theorem rat_ofNumerator_le {m : ℤ} (hmn : m ≤ n) (hm : (ofNumerator m denom).isValid = true)
    (hn : (ofNumerator n denom).isValid = true) : (ofNumerator m denom).rat ≤ (ofNumerator n denom).rat := by
  rw [rat_ofNumerator hD hm, rat_ofNumerator hD hn]
  exact div_le_div_of_nonneg_right (Int.cast_le.mpr hmn) (Int.cast_nonneg hD.le)

end Components

private theorem rat_round_le (hD : 0 < denom.toInt) (hw : 0 < w.denom.toInt) (hs : 0 < s.denom.toInt)
    (h : w.rat ≤ s.rat) {rounding : Rounding} (hnear : rounding ≠ .near)
    (hwround : (w.round denom rounding).isValid = true) (hsround : (s.round denom rounding).isValid = true) :
    (w.round denom rounding).rat ≤ (s.round denom rounding).rat := by
  have hmul : w.rat * denom.toInt ≤ s.rat * denom.toInt := mul_le_mul_of_nonneg_right h (Int.cast_nonneg hD.le)
  cases rounding with
  | near => exact absurd rfl hnear
  | down =>
    rw [round, roundDown, if_neg hw.not_ge, numeratorBelow_eq_raised hw] at hwround ⊢
    rw [round, roundDown, if_neg hs.not_ge, numeratorBelow_eq_raised hs] at hsround ⊢
    exact rat_ofNumerator_le hD (raised_le_raised (Int.floor_mono hmul)) hwround hsround
  | up =>
    rw [round, roundUp, if_neg hw.not_ge, numeratorAbove_eq_lowered hw] at hwround ⊢
    rw [round, roundUp, if_neg hs.not_ge, numeratorAbove_eq_lowered hs] at hsround ⊢
    exact rat_ofNumerator_le hD (lowered_le_lowered (Int.ceil_mono hmul)) hwround hsround

section Interior
variable (hnum : 0 < w.num.toInt) (hlt : w.num.toInt < w.denom.toInt) (hD : 2 ≤ denom.toInt)
include hnum hlt hD

/-- The unrounded numerator is strictly between zero and the denominator. -/
theorem rat_mul_between : 0 < w.rat * denom.toInt ∧ w.rat * denom.toInt < denom.toInt := by
  have hd : (0 : ℚ) < w.denom.toInt := Int.cast_pos.mpr (hnum.trans hlt)
  have hD' : (0 : ℚ) < denom.toInt := Int.cast_pos.mpr (by omega)
  constructor
  · exact mul_pos (div_pos (Int.cast_pos.mpr hnum) hd) hD'
  · exact mul_lt_of_lt_one_left hD' ((div_lt_one hd).mpr (Int.cast_lt.mpr hlt))

/-- Rounding down gives the floor, but at least one. -/
theorem roundDown_interior :
    ∃ n : Int64, w.roundDown denom = ⟨n, denom⟩ ∧ n.toInt = max 1 ⌊w.rat * denom.toInt⌋ := by
  have hd := hnum.trans hlt
  obtain ⟨hpos, hbelow⟩ := rat_mul_between hnum hlt hD
  have hfloor : ⌊w.rat * denom.toInt⌋ < denom.toInt := Int.floor_lt.mpr hbelow
  have hraised := raised_of_nonneg (Int.floor_nonneg.mpr hpos.le)
  have hle : raised ⌊w.rat * denom.toInt⌋ ≤ denom.toInt := by omega
  obtain ⟨n, hn, heq⟩ := ofNumerator_eq (by omega) hle
  exact ⟨n, by rw [roundDown, if_neg hd.not_ge, numeratorBelow_eq_raised hd, heq], hn.trans hraised⟩

/-- Rounding up gives the ceiling, but less than one. -/
theorem roundUp_interior :
    ∃ n : Int64, w.roundUp denom = ⟨n, denom⟩ ∧ n.toInt = min (denom.toInt - 1) ⌈w.rat * denom.toInt⌉ := by
  have hd := hnum.trans hlt
  obtain ⟨hpos, hbelow⟩ := rat_mul_between hnum hlt hD
  have hceil : 0 < ⌈w.rat * denom.toInt⌉ := Int.ceil_pos.mpr hpos
  have hlowered := lowered_of_le (Int.ceil_le.mpr hbelow.le)
  have hle : lowered denom.toInt ⌈w.rat * denom.toInt⌉ ≤ denom.toInt := by omega
  obtain ⟨n, hn, heq⟩ := ofNumerator_eq (by omega) hle
  exact ⟨n, by rw [roundUp, if_neg hd.not_ge, numeratorAbove_eq_lowered hd, heq], hn.trans hlowered⟩

omit hnum hlt in
private theorem abs_sub_rat_lt (h : |(n : ℚ) - w.rat * denom.toInt| < 1) :
    |(n : ℚ) / denom.toInt - w.rat| < 1 / denom.toInt := by
  have hD' : (0 : ℚ) < denom.toInt := Int.cast_pos.mpr (by omega)
  have hsub : (n : ℚ) / denom.toInt - w.rat = (n - w.rat * denom.toInt) / denom.toInt := by
    rw [sub_div, mul_div_cancel_right₀ _ hD'.ne']
  rw [hsub, abs_div, abs_of_pos hD']
  exact div_lt_div_of_pos_right h hD'

/-- Both numerators are within range and less than one off. The bumps at both ends move towards the weight or past it,
but not by one. -/
private theorem round_interior_bounds (rounding : Rounding) : ∃ n : Int64, w.round denom rounding = ⟨n, denom⟩ ∧
    1 ≤ n.toInt ∧ n.toInt ≤ denom.toInt - 1 ∧ |(n.toInt : ℚ) / denom.toInt - w.rat| < 1 / denom.toInt := by
  obtain ⟨hpos, hbelow⟩ := rat_mul_between hnum hlt hD
  rcases round_eq_or w denom rounding with hround | hround
  · obtain ⟨n, hn, hmax⟩ := roundDown_interior hnum hlt hD
    have hfloor : ⌊w.rat * denom.toInt⌋ < denom.toInt := Int.floor_lt.mpr hbelow
    refine ⟨n, hround.trans hn, by omega, by omega, abs_sub_rat_lt hD (abs_sub_lt_iff.mpr ⟨?_, ?_⟩)⟩
    · rcases max_choice 1 ⌊w.rat * denom.toInt⌋ with hone | hsame
      · rw [hmax, hone, Int.cast_one]
        linarith
      · rw [hmax, hsame]
        linarith [Int.floor_le (w.rat * denom.toInt)]
    · have hle : (⌊w.rat * denom.toInt⌋ : ℚ) ≤ n.toInt := Int.cast_le.mpr (by omega)
      linarith [Int.lt_floor_add_one (w.rat * denom.toInt)]
  · obtain ⟨n, hn, hmin⟩ := roundUp_interior hnum hlt hD
    have hceil : 0 < ⌈w.rat * denom.toInt⌉ := Int.ceil_pos.mpr hpos
    refine ⟨n, hround.trans hn, by omega, by omega, abs_sub_rat_lt hD (abs_sub_lt_iff.mpr ⟨?_, ?_⟩)⟩
    · have hle : (n.toInt : ℚ) ≤ ⌈w.rat * denom.toInt⌉ := Int.cast_le.mpr (by omega)
      linarith [Int.ceil_lt_add_one (w.rat * denom.toInt)]
    · rcases min_choice (denom.toInt - 1) ⌈w.rat * denom.toInt⌉ with hlast | hsame
      · rw [hmin, hlast, Int.cast_sub, Int.cast_one]
        linarith
      · rw [hmin, hsame]
        linarith [Int.le_ceil (w.rat * denom.toInt)]

end Interior

/-- A weight strictly between zero and one stays there and moves by less than one unit, however it is rounded: down to
the floor, but at least to one unit, or up to the ceiling, but not to one. Whatever doubles say, rounding to the nearer
is one of these. Rounding down and rounding up keep the order of all weights with positive denominators for which they
give valid ones. -/
theorem round_interior (hD : 2 ≤ denom.toInt) :
    (∀ w : Weight, 0 < w.num.toInt → w.num.toInt < w.denom.toInt →
      (∀ rounding, ∃ n : Int64, w.round denom rounding = ⟨n, denom⟩ ∧ 1 ≤ n.toInt ∧ n.toInt ≤ denom.toInt - 1 ∧
        |(n.toInt : ℚ) / denom.toInt - w.rat| < 1 / denom.toInt) ∧
      (w.round denom .down).num.toInt = max 1 ⌊w.rat * denom.toInt⌋ ∧
      (w.round denom .up).num.toInt = min (denom.toInt - 1) ⌈w.rat * denom.toInt⌉ ∧
      (w.round denom .down).rat ≤ (w.round denom .up).rat ∧
      (w.round denom .near = w.round denom .down ∨ w.round denom .near = w.round denom .up)) ∧
    ∀ w s : Weight, 0 < w.denom.toInt → 0 < s.denom.toInt → w.rat ≤ s.rat → ∀ rounding ≠ Rounding.near,
      (w.round denom rounding).isValid = true → (s.round denom rounding).isValid = true →
        (w.round denom rounding).rat ≤ (s.round denom rounding).rat := by
  refine ⟨fun w hnum hlt => ?_, fun w s hw hs h rounding hnear hwround hsround => ?_⟩
  · obtain ⟨n, hdown, hn⟩ := roundDown_interior hnum hlt hD
    obtain ⟨m, hup, hm⟩ := roundUp_interior hnum hlt hD
    refine ⟨round_interior_bounds hnum hlt hD, ?_, ?_, ?_, round_eq_or w denom .near⟩
    · rw [round, hdown, hn]
    · rw [round, hup, hm]
    · obtain ⟨hpos, hbelow⟩ := rat_mul_between hnum hlt hD
      have hfloor : ⌊w.rat * denom.toInt⌋ < denom.toInt := Int.floor_lt.mpr hbelow
      have hceil : 0 < ⌈w.rat * denom.toInt⌉ := Int.ceil_pos.mpr hpos
      have hle : n.toInt ≤ m.toInt := by
        have := Int.floor_le_ceil (w.rat * denom.toInt)
        omega
      have hnonneg : 0 ≤ denom.toInt := by omega
      rw [round, round, hdown, hup]
      exact div_le_div_of_nonneg_right (Int.cast_le.mpr hle) (Int.cast_nonneg hnonneg)
  · exact rat_round_le (by omega) hw hs h hnear hwround hsround

/-- One tenth stays between zero and one when it is rounded to eighths, and rounding down does not bring it above one
third. -/
theorem round_interior_tenth : 2 ≤ (8 : Int64).toInt ∧ 0 < (⟨1, 10⟩ : Weight).num.toInt ∧
    (⟨1, 10⟩ : Weight).num.toInt < (⟨1, 10⟩ : Weight).denom.toInt ∧
      (∃ n : Int64, (⟨1, 10⟩ : Weight).round 8 .near = ⟨n, 8⟩ ∧ 1 ≤ n.toInt ∧ n.toInt ≤ (8 : Int64).toInt - 1 ∧
        |(n.toInt : ℚ) / (8 : Int64).toInt - (⟨1, 10⟩ : Weight).rat| < 1 / (8 : Int64).toInt) ∧
      ((⟨1, 10⟩ : Weight).round 8 .down).isValid = true ∧ ((⟨1, 3⟩ : Weight).round 8 .down).isValid = true ∧
      ((⟨1, 10⟩ : Weight).round 8 .down).rat ≤ ((⟨1, 3⟩ : Weight).round 8 .down).rat := by
  have hD : 2 ≤ (8 : Int64).toInt := by decide
  have hnum : 0 < (⟨1, 10⟩ : Weight).num.toInt := by decide
  have hlt : (⟨1, 10⟩ : Weight).num.toInt < (⟨1, 10⟩ : Weight).denom.toInt := by decide
  have hvalid : ((⟨1, 10⟩ : Weight).round 8 .down).isValid = true := by decide
  have hvalid' : ((⟨1, 3⟩ : Weight).round 8 .down).isValid = true := by decide
  have hle : (⟨1, 10⟩ : Weight).rat ≤ (⟨1, 3⟩ : Weight).rat := by decide +kernel
  exact ⟨hD, hnum, hlt, ((round_interior hD).1 _ hnum hlt).1 .near, hvalid, hvalid',
    (round_interior hD).2 _ _ (by decide) (by decide) hle .down (by decide) hvalid hvalid'⟩

end WeightedCnf.Weight

import WeightedCnf.Binary64.Text
import WeightedCnf.Proofs.DoubleArithmetic
import WeightedCnf.Proofs.Words

/-! Exact fractions as doubles. Numerator and denominator are rounded before they are divided, so the quotient is near
the fraction only as long as both of them are finite, however moderate the fraction itself is. -/
namespace WeightedCnf.Binary64
open Float.Model (UnpackedFloat)

section Outcomes
variable {k l : ℕ} {x y : Float} {p q : ℚ} {s t : UnpackedFloat.Sign}

private theorem HasValue.isFinite (h : HasValue k x q) : x.isFinite = true := by
  change x.toModel.unpack.isFinite = true
  unfold HasValue at h
  generalize x.toModel.unpack = f at h
  cases h <;> rfl

private theorem isNaN_div (hx : x.toModel.unpack = .infinity s) (hy : y.toModel.unpack = .infinity t) :
    (x / y).isNaN = true := by
  have hdiv : UnpackedFloat.div .binary64 (.infinity s) (.infinity t) = .notANumber := rfl
  rw [div_eq, hx, hy, hdiv]
  rfl

private theorem isInf_div (hx : x.toModel.unpack = .infinity s) (hy : HasValue l y q) (hq : 0 < q) :
    (x / y).isInf = true := by
  obtain ⟨n, f, hn, hfy, -⟩ := exists_finite hy hq
  have hdiv : UnpackedFloat.div .binary64 (.infinity s) (.finite .positive n f hn) = .infinity s := by
    cases s <;> rfl
  rw [div_eq, hx, hfy, hdiv]
  cases s <;> rfl

private theorem hasValue_zero_div (hx : HasValue k x p) (hp : p ≠ 0) (hy : y.toModel.unpack = .infinity s) :
    HasValue 0 (x / y) 0 := by
  obtain ⟨t, m, e, hm, hfx, -⟩ := exists_finite_of_ne hx hp
  have hdiv : UnpackedFloat.div .binary64 (.finite t m e hm) (.infinity s) = .zero (t / s) := rfl
  have hunpack : (Float.ofModel (.pack (.zero (t / s)))).toModel.unpack = .zero (t / s) := by
    cases t / s <;> rfl
  rw [div_eq, hfx, hy, hdiv, HasValue, hunpack]
  exact .zero _

end Outcomes

/-- The double is finite, and it is off by four parts in two to the 53 at most. -/
structure IsNear (x : Float) (q : ℚ) : Prop where
  finite : x.isFinite = true
  value : ∃ v, HasValue 1074 x v ∧ |v - q| ≤ 4 * (|q| / 2 ^ 53)

/-- What becomes of a fraction, by the sizes of its numerator and its denominator. -/
inductive Converts (q : ℚ) (x : Float) : Prop
  | near (hnum : q.num.natAbs < overflow) (hden : q.den < overflow) (h : IsNear x q)
  | zero (hnum : q.num.natAbs < overflow) (hden : overflow ≤ q.den) (h : HasValue 0 x 0)
  | infinite (hnum : overflow ≤ q.num.natAbs) (hden : q.den < overflow) (h : x.isInf = true)
  | undefined (hnum : overflow ≤ q.num.natAbs) (hden : overflow ≤ q.den) (h : x.isNaN = true)

/-- A fraction that is not too near to zero and not too large. -/
structure IsModerate (q : ℚ) : Prop where
  low : (2 : ℚ) ^ (-1000 : ℤ) ≤ |q|
  high : |q| ≤ 2 ^ (1000 : ℤ)

section Fractions
variable {q : ℚ}

private theorem IsModerate.ne_zero (h : IsModerate q) : q ≠ 0 := by
  rintro rfl
  have hlow := h.low
  rw [abs_zero] at hlow
  exact absurd (zpow_pos two_pos _) hlow.not_gt

private theorem abs_sub_of_mul_nonneg {v w : ℚ} (h : 0 ≤ v * w) : |v - w| = |(|v| - |w|)| := by
  rcases mul_nonneg_iff.mp h with ⟨hv, hw⟩ | ⟨hv, hw⟩
  · rw [abs_of_nonneg hv, abs_of_nonneg hw]
  · rw [abs_of_nonpos hv, abs_of_nonpos hw, neg_sub_neg, abs_sub_comm]

private theorem moderate_div {x a y c : ℚ} (ha : Rounds x a) (hc : Rounds y c) (hx : 0 < x) (hy : 0 < y)
    (hlow : (2 : ℚ) ^ (-1000 : ℤ) ≤ x / y) (hhigh : x / y ≤ 2 ^ (1000 : ℤ)) :
    (2 : ℚ) ^ (-(1002 : ℕ) : ℤ) ≤ a / c ∧ a / c ≤ 2 ^ ((1002 : ℕ) : ℤ) := by
  obtain ⟨halow, hahigh⟩ := abs_le.mp ha.abs_sub_le
  obtain ⟨hclow, hchigh⟩ := abs_le.mp hc.abs_sub_le
  have hc0 := hc.pos_right hy
  have hquarter : x / y / 4 ≤ a / c := by
    rw [div_div, div_le_div_iff₀ (by positivity) hc0]
    nlinarith
  have hfour : a / c ≤ 4 * (x / y) := by
    rw [mul_div_assoc', div_le_div_iff₀ hc0 hy]
    nlinarith
  have hlow' : (2 : ℚ) ^ (-(1002 : ℕ) : ℤ) = 2 ^ (-1000 : ℤ) / 4 := by
    rw [show (-(1002 : ℕ) : ℤ) = -1000 - 2 from rfl, zpow_sub₀ two_ne_zero]
    norm_num
  have hhigh' : (2 : ℚ) ^ ((1002 : ℕ) : ℤ) = 4 * 2 ^ (1000 : ℤ) := by
    rw [show ((1002 : ℕ) : ℤ) = 2 + 1000 from rfl, zpow_add₀ two_ne_zero]
    norm_num
  rw [hlow', hhigh']
  constructor <;> linarith

private theorem isNear_ofRat (h : IsModerate q) (hnum : q.num.natAbs < overflow) (hden : q.den < overflow) :
    IsNear (ofRat q) q := by
  have hnum0 : q.num ≠ 0 := Rat.num_ne_zero.mpr h.ne_zero
  have hnum0' : 0 < |(q.num : ℚ)| := abs_pos.mpr (Int.cast_ne_zero.mpr hnum0)
  have hden0 : (0 : ℚ) < (q.den : ℤ) := by exact_mod_cast q.den_pos
  have hq : q = q.num / (q.den : ℤ) := q.num_div_den.symm
  have habs : |q| = |(q.num : ℚ)| / (q.den : ℤ) := by rw [← abs_of_pos hden0, ← abs_div, ← hq]
  obtain ⟨a, ha, hasign, hnumerator⟩ := hasValue_ofInt_of_lt hnum0 hnum
  obtain ⟨c, hc, hcsign, hdenominator⟩ := hasValue_ofInt_of_lt (n := q.den) (by exact_mod_cast q.den_ne_zero) hden
  replace hc := hc.of_abs hcsign hden0
  have ha0 : a ≠ 0 := left_ne_zero_of_mul hasign.ne'
  obtain ⟨hlow, hhigh⟩ := moderate_div ha hc hnum0' hden0 (habs ▸ h.low) (habs ▸ h.high)
  obtain ⟨z, hz, hzsign, hvalue⟩ := hnumerator.div_of_moderate hdenominator ha0 (hc.pos_right hden0) le_rfl hlow hhigh
  have hoff := ha.abs_div_sub_le hc hz hnum0' hden0
  have hsign : 0 ≤ z * q := by
    have hproduct : 0 < z * q.num * (a * a) := by linarith [mul_pos hzsign hasign]
    rw [hq, mul_div_assoc']
    exact div_nonneg (pos_of_mul_pos_left hproduct (mul_self_nonneg a)).le hden0.le
  refine ⟨hvalue.isFinite, z, hvalue, ?_⟩
  rw [abs_sub_of_mul_nonneg hsign, habs]
  exact hoff

/-- The components of a fraction decide about its double. -/
theorem converts_ofRat (h : IsModerate q) : Converts q (ofRat q) := by
  have hnum0 : q.num ≠ 0 := Rat.num_ne_zero.mpr h.ne_zero
  have hden' : (q.den : ℤ) ≠ 0 := by exact_mod_cast q.den_ne_zero
  have hden0 : (0 : ℚ) < (q.den : ℤ) := by exact_mod_cast q.den_pos
  rcases lt_or_ge q.num.natAbs overflow with hnum | hnum <;> rcases lt_or_ge q.den overflow with hden | hden
  · exact .near hnum hden (isNear_ofRat h hnum hden)
  · obtain ⟨a, ha, hasign, hnumerator⟩ := hasValue_ofInt_of_lt hnum0 hnum
    obtain ⟨s, hdenominator⟩ := unpack_ofInt_of_overflow (n := q.den) hden
    exact .zero hnum hden (hasValue_zero_div hnumerator (left_ne_zero_of_mul hasign.ne') hdenominator)
  · obtain ⟨s, hnumerator⟩ := unpack_ofInt_of_overflow hnum
    obtain ⟨c, hc, hcsign, hdenominator⟩ := hasValue_ofInt_of_lt hden' hden
    exact .infinite hnum hden (isInf_div hnumerator hdenominator (pos_of_mul_pos_left hcsign hden0.le))
  · obtain ⟨s, hnumerator⟩ := unpack_ofInt_of_overflow hnum
    obtain ⟨t, hdenominator⟩ := unpack_ofInt_of_overflow (n := q.den) hden
    exact .undefined hnum hden (isNaN_div hnumerator hdenominator)

end Fractions

section Text
open Text.Decimal (isDigit)
variable {x : Float}

private theorem isFinite_eq_false_of_isInf (h : x.isInf = true) : x.isFinite = false := by
  change x.toModel.unpack.isInf = true at h
  change x.toModel.unpack.isFinite = false
  cases hf : x.toModel.unpack <;> rw [hf] at h <;> first | rfl | cases h

private theorem isFinite_eq_false_of_isNaN (h : x.isNaN = true) : x.isFinite = false := by
  change x.toModel.unpack.isNaN = true at h
  change x.toModel.unpack.isFinite = false
  cases hf : x.toModel.unpack <;> rw [hf] at h <;> first | rfl | cases h

private theorem exponentField_ne_of_isFinite (h : x.isFinite = true) : x.toBits.toNat >>> 52 % 2048 ≠ 2047 := by
  intro hfield
  have hexponent : @UnpackedFloat.unpackExponent .binary64 x.toModel.toBits.toBitVec = -1#11 := by
    apply BitVec.eq_of_toNat_eq
    unfold UnpackedFloat.unpackExponent
    rw [BitVec.toNat_cast, BitVec.extractLsb_toNat]
    exact hfield
  change (UnpackedFloat.unpack .binary64 x.toModel.toBits.toBitVec).isFinite = true at h
  unfold UnpackedFloat.unpack at h
  dsimp only at h
  rw [if_pos hexponent] at h
  split at h <;> cases h

/-- A character of a decimal number that is written without an exponent. -/
def IsPositional (c : Char) : Prop :=
  isDigit c = true ∨ c = '.' ∨ c = '-'

private theorem isPositional_of_mem_zeros {n : ℕ} {c : Char} (h : c ∈ List.replicate n '0') : IsPositional c :=
  .inl (List.eq_of_mem_replicate h ▸ rfl)

private theorem isPositional_of_mem_digits {n : ℕ} {c : Char} (h : c ∈ Text.Decimal.digits n) : IsPositional c :=
  .inl (Text.Decimal.isDigit_of_mem_digits h)

private theorem isPositional_of_mem_positional {d : Decimal} {c : Char} (h : c ∈ d.positional) : IsPositional c := by
  unfold Decimal.positional at h
  dsimp only at h
  split at h
  · exact (List.mem_append.mp h).elim isPositional_of_mem_digits isPositional_of_mem_zeros
  split at h
  · rcases List.mem_append.mp h with hc | hc
    · exact isPositional_of_mem_digits (List.mem_of_mem_take hc)
    · rcases List.mem_cons.mp hc with rfl | hc
      · exact .inr (.inl rfl)
      · exact isPositional_of_mem_digits (List.mem_of_mem_drop hc)
  · rcases List.mem_append.mp h with hc | hc
    · rcases List.mem_cons.mp hc with rfl | hc
      · exact .inl rfl
      rcases List.mem_cons.mp hc with rfl | hc
      · exact .inr (.inl rfl)
      · exact isPositional_of_mem_zeros hc
    · exact isPositional_of_mem_digits hc

/-- A finite double is written as a decimal number. -/
theorem isPositional_of_mem_text (h : x.isFinite = true) {c : Char} (hc : c ∈ text plain x) : IsPositional c := by
  have hsign {cs : List Char} (hcs : ∀ c ∈ cs, IsPositional c)
      (hc : c ∈ (if x.toBits.toNat < 1 <<< 63 then [] else ['-']) ++ cs) : IsPositional c := by
    rcases List.mem_append.mp hc with hc | hc
    · split at hc
      · cases hc
      · exact .inr (.inr (List.mem_singleton.mp hc))
    · exact hcs c hc
  unfold text at hc
  dsimp only at hc
  rw [if_neg (exponentField_ne_of_isFinite h)] at hc
  split at hc
  · exact hsign (fun c hc => .inl (List.mem_singleton.mp hc ▸ rfl)) hc
  · exact hsign (fun c hc => isPositional_of_mem_positional hc) hc

end Text

/-- The double of the fraction is a number near it, and it is written as a number. -/
structure IsUsable (q : ℚ) : Prop where
  near : IsNear (ofRat q) q
  written : ∀ c ∈ text plain (ofRat q), IsPositional c

section Usability
variable {q : ℚ}

private theorem IsNear.isUsable (h : IsNear (ofRat q) q) : IsUsable q :=
  ⟨h, fun _ hc => isPositional_of_mem_text h.finite hc⟩

theorem isUsable_zero : IsUsable 0 := by
  have hunpack : (ofRat 0).toModel.unpack = .zero .positive := rfl
  have hvalue : HasValue 1074 (ofRat 0) 0 := by
    rw [HasValue, hunpack]
    exact .zero _
  exact IsNear.isUsable ⟨hvalue.isFinite, 0, hvalue, by norm_num⟩

private theorem not_isNear_of_zero {x : Float} (hq : q ≠ 0) (h : HasValue 0 x 0) : ¬ IsNear x q := by
  rintro ⟨-, v, hv, hoff⟩
  obtain ⟨s, hzero⟩ := exists_zero h rfl
  have hv0 : v = 0 := by
    rw [HasValue, hzero] at hv
    cases hv
    rfl
  have hpos : 0 < |q| := abs_pos.mpr hq
  rw [hv0, zero_sub, abs_neg] at hoff
  linarith

/-- The double of a moderate fraction is finite just if that of its numerator is. -/
theorem isFinite_ofRat_iff (h : IsModerate q) : (ofRat q).isFinite = true ↔ q.num.natAbs < overflow := by
  cases converts_ofRat h with
  | near hnum _ hnear => exact iff_of_true hnear.finite hnum
  | zero hnum _ hzero => exact iff_of_true hzero.isFinite hnum
  | infinite hnum _ hinf => exact iff_of_false (by simp [isFinite_eq_false_of_isInf hinf]) hnum.not_gt
  | undefined hnum _ hnan => exact iff_of_false (by simp [isFinite_eq_false_of_isNaN hnan]) hnum.not_gt

/-- The double of a moderate fraction is usable just if those of both components are finite. -/
theorem isUsable_iff (h : IsModerate q) : IsUsable q ↔ q.num.natAbs < overflow ∧ q.den < overflow := by
  constructor
  · intro husable
    have hnum := (isFinite_ofRat_iff h).mp husable.near.finite
    cases converts_ofRat h with
    | near _ hden => exact ⟨hnum, hden⟩
    | zero _ _ hzero => exact absurd husable.near (not_isNear_of_zero h.ne_zero hzero)
    | infinite hlarge => exact absurd hnum hlarge.not_gt
    | undefined hlarge => exact absurd hnum hlarge.not_gt
  · rintro ⟨hnum, hden⟩
    exact (isNear_ofRat h hnum hden).isUsable

end Usability

end WeightedCnf.Binary64

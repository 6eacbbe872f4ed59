import WeightedCnf.Binary64.Nearest
import WeightedCnf.Proofs.Significands

/-! What division, subtraction and comparison of doubles do to their exact values, far from the ends of their range. -/
namespace WeightedCnf.Binary64
open Float.Model (Format UnpackedFloat totalExponent)
open Float.Model.UnpackedFloat

section Packing
variable {k : ℕ} {f : UnpackedFloat} {q : ℚ}

private theorem ofBitVec_unpackSign (s : Sign) (E : BitVec 11) (M : BitVec 52) :
    Sign.ofBitVec (unpackSign (packComponents .binary64 s E M)) = s := by
  have hsign : unpackSign (packComponents .binary64 s E M) = s.toBitVec := by
    unfold unpackSign packComponents BitVec.extractLsb
    rw [BitVec.extractLsb'_append_eq_of_le (by decide), BitVec.extractLsb'_append_eq_of_le (by decide)]
    cases s <;> rfl
  rw [hsign]
  cases s <;> rfl

/-- An exponent field strictly between its extremes stands for a normal number: the leading bit of its significand is
left out. -/
private theorem unpack_packComponents (s : Sign) {E : BitVec 11} {M : BitVec 52} (hE : E ≠ 0#11) (hE' : E ≠ -1#11) :
    UnpackedFloat.unpack .binary64 (packComponents .binary64 s E M) =
      .finite s (2 ^ 52 + M.toNat) (E.toNat - 1075) (by omega) := by
  have hlead : (1#1 ++ M).toNat = 2 ^ 52 + M.toNat := by
    rw [BitVec.toNat_append, ← Nat.shiftLeft_add_eq_or_of_lt M.isLt]
    rfl
  unfold UnpackedFloat.unpack
  dsimp only
  rw [if_neg (by rwa [unpackExponent_packComponents]), if_neg (by rwa [unpackExponent_packComponents]),
    UnpackedFloat.finite.injEq, unpackMantissa_packComponents, unpackExponent_packComponents]
  exact ⟨ofBitVec_unpackSign s E M, hlead, rfl⟩

private theorem abs_apply_mul (s : Sign) (m : ℕ) (e : ℤ) : |((s.apply m : ℤ) * 2 ^ e : ℚ)| = m * 2 ^ e := by
  have hunit : (0 : ℚ) < 2 ^ e := zpow_pos two_pos e
  rw [abs_mul, abs_of_pos hunit]
  cases s <;> simp [Sign.apply]

private theorem Denotes.abs_lt (h : Denotes k f q) : |q| < 2 ^ 53 * 2 ^ k := by
  cases h with
  | zero s =>
    rw [abs_zero]
    positivity
  | @finite s m e hm hlow hhigh he =>
    have hunit : (2 : ℚ) ^ e ≤ 2 ^ k := by
      rw [← zpow_natCast]
      exact zpow_le_zpow_right₀ one_le_two (abs_le.mp he).2
    rw [abs_apply_mul]
    exact mul_lt_mul (by exact_mod_cast hhigh) hunit (zpow_pos two_pos e) (by positivity)

private theorem unpack_pack (h : Denotes k f q) (hk : k ≤ 1074) (hq : |q| < 2 ^ 1024) :
    UnpackedFloat.unpack .binary64 (UnpackedFloat.pack .binary64 f) = f := by
  cases h with
  | zero s => cases s <;> rfl
  | @finite s m e hm hlow hhigh he =>
    obtain ⟨helow, -⟩ := abs_le.mp he
    have hehigh : e ≤ 971 := by
      have hlt : (2 : ℚ) ^ (52 + e) < 2 ^ (1024 : ℤ) :=
        calc (2 : ℚ) ^ (52 + e)
            = 2 ^ 52 * 2 ^ e := zpow_add₀ two_ne_zero 52 e
          _ ≤ m * 2 ^ e := mul_le_mul_of_nonneg_right (by exact_mod_cast hlow) (zpow_pos two_pos e).le
          _ < 2 ^ (1024 : ℤ) := abs_apply_mul s m e ▸ hq
      have hexponent := (zpow_lt_zpow_iff_right₀ one_lt_two).mp hlt
      omega
    have hlog : m.log2 = 52 := (Nat.log2_eq_iff hm.ne').mpr ⟨hlow, hhigh⟩
    have hpack : UnpackedFloat.pack .binary64 (.finite s m e hm) =
        packComponents .binary64 s (.ofNat 11 (e + 1075).toNat) (.ofNat 52 m) := by
      have hbiased : (e + Format.binary64.exponentBias + Format.binary64.mantissaBitsWithoutImplicit).toNat =
          (e + 1075).toNat := by
        change (e + (1023 : ℕ) + (52 : ℕ)).toNat = _
        omega
      unfold UnpackedFloat.pack
      dsimp only
      rw [hbiased, if_neg (by norm_num; omega), if_pos (by rw [hlog]; rfl)]
    have hE : (BitVec.ofNat 11 (e + 1075).toNat).toNat = (e + 1075).toNat := Nat.mod_eq_of_lt (by omega)
    have hM : 2 ^ 52 + (BitVec.ofNat 52 m).toNat = m := by
      rw [BitVec.toNat_ofNat]
      omega
    have hne {c : BitVec 11} (hc : c.toNat = 0 ∨ c.toNat = 2047) : BitVec.ofNat 11 (e + 1075).toNat ≠ c := by
      rintro rfl
      omega
    rw [hpack, unpack_packComponents s (hne (.inl rfl)) (hne (.inr rfl)), UnpackedFloat.finite.injEq, hE]
    exact ⟨rfl, hM, by omega⟩

end Packing

/-- The double has this value: it is zero, or a number of 53 bits whose exponent is not above `k` in absolute value. -/
def HasValue (k : ℕ) (x : Float) (q : ℚ) : Prop :=
  Denotes k x.toModel.unpack q

section Operations
variable {k l : ℕ} {f : UnpackedFloat} {x y : Float} {p q : ℚ}

private theorem hasValue_pack (h : Denotes k f q) (hk : k ≤ 1074) (hq : |q| < 2 ^ 1024) :
    HasValue k (.ofModel (.pack f)) q := by
  have hunpack : (Float.ofModel (.pack f)).toModel.unpack = f := unpack_pack h hk hq
  rw [HasValue, hunpack]
  exact h

private theorem hasValue_pack_of_le (h : Denotes k f q) (hk : k ≤ 971) : HasValue k (.ofModel (.pack f)) q := by
  refine hasValue_pack h (by omega) (h.abs_lt.trans_le ?_)
  calc (2 ^ 53 * 2 ^ k : ℚ)
      = 2 ^ (53 + k) := (pow_add 2 53 k).symm
    _ ≤ 2 ^ 1024 := pow_le_pow_right₀ one_le_two (by omega)

/-- Zeros have no other value than zero. -/
theorem exists_finite_of_ne (h : Denotes k f q) (hq : q ≠ 0) : ∃ (s : Sign) (m : ℕ) (e : ℤ) (hm : 0 < m),
    f = .finite s m e hm ∧ 2 ^ 52 ≤ m ∧ m < 2 ^ 53 ∧ |e| ≤ k ∧ q = (s.apply m : ℤ) * 2 ^ e := by
  cases h with
  | zero => exact absurd rfl hq
  | @finite s m e hm hlow hhigh he => exact ⟨s, m, e, hm, rfl, hlow, hhigh, he, rfl⟩

/-- A positive number has a positive sign. -/
theorem exists_finite (h : Denotes k f q) (hq : 0 < q) : ∃ (m : ℕ) (e : ℤ) (hm : 0 < m),
    f = .finite .positive m e hm ∧ 2 ^ 52 ≤ m ∧ m < 2 ^ 53 ∧ |e| ≤ k ∧ q = m * 2 ^ e := by
  obtain ⟨s, m, e, hm, hf, hlow, hhigh, he, hvalue⟩ := exists_finite_of_ne h hq.ne'
  cases s with
  | positive => exact ⟨m, e, hm, hf, hlow, hhigh, he, hvalue⟩
  | negative =>
    have hneg : ((Sign.negative.apply m : ℤ) * 2 ^ e : ℚ) ≤ 0 := by
      change ((-(m : ℤ) : ℤ) * 2 ^ e : ℚ) ≤ 0
      rw [Int.cast_neg, Int.cast_natCast, neg_mul, Left.neg_nonpos_iff]
      positivity
    exact absurd (hvalue ▸ hq) hneg.not_gt

/-- The integral part of a quotient of two significands, with 53 more bits on the left, has 53 or 54 bits. -/
private theorem log2_quotient {m n : ℕ} (hm : 2 ^ 52 ≤ m) (hm' : m < 2 ^ 53) (hn : 2 ^ 52 ≤ n) (hn' : n < 2 ^ 53) :
    ∃ j ≤ 1, (m <<< 53 / n).log2 = 52 + j := by
  have hlow : 2 ^ 52 ≤ m <<< 53 / n := by
    rw [Nat.le_div_iff_mul_le (by omega), Nat.shiftLeft_eq]
    exact Nat.mul_le_mul hm hn'.le
  have hhigh : m <<< 53 / n < 2 ^ 54 := by
    rw [Nat.div_lt_iff_lt_mul (by omega), Nat.shiftLeft_eq]
    omega
  rcases lt_or_ge (m <<< 53 / n) (2 ^ 53) with hlt | hge
  · exact ⟨0, zero_le_one, (Nat.log2_eq_iff (by omega)).mpr ⟨hlow, hlt⟩⟩
  · exact ⟨1, le_rfl, (Nat.log2_eq_iff (by omega)).mpr ⟨hge, hhigh⟩⟩

private theorem divCore_eq {m n : ℕ} {e f : ℤ} (hm : m.log2 = 52) (hn : n.log2 = 52) (hef : -1021 ≤ e - f) :
    divCore .binary64 m e n f = (m <<< 53 / n, e - f - 53, accuracyOfFraction (m <<< 53 % n) n) := by
  have htarget : min (e - f) (Format.binary64.targetExponent (totalExponent m e - totalExponent n f)) =
      e - f - 53 := by
    rw [totalExponent, totalExponent, hm, hn, targetExponent_eq (by omega)]
    omega
  unfold divCore
  dsimp only
  rw [htarget, sub_sub_cancel]
  rfl

/-- The exact quotient is rounded, as long as the difference of the exponents is not near the ends of their range. -/
private theorem denotes_div (s t : Sign) {m n : ℕ} {e f : ℤ} (hm : 0 < m) (hn : 0 < n) (hmlow : 2 ^ 52 ≤ m)
    (hmhigh : m < 2 ^ 53) (hnlow : 2 ^ 52 ≤ n) (hnhigh : n < 2 ^ 53) (hef : |e - f| + 53 < k) (hk : k ≤ 1074) :
    ∃ z, Rounds (m * 2 ^ e / (n * 2 ^ f)) z ∧
      Denotes k (UnpackedFloat.div .binary64 (.finite s m e hm) (.finite t n f hn)) (((s / t).apply 1 : ℤ) * z) := by
  obtain ⟨hlow, hhigh⟩ := abs_le.mp (le_refl |e - f|)
  obtain ⟨j, hj, hlog⟩ := log2_quotient hmlow hmhigh hnlow hnhigh
  obtain ⟨z, hz, hdenotes⟩ := denotes_roundWithAccuracy (s := s / t) (e := e - f - 53) (k := k)
    (.quotient (m <<< 53) hn) hlog (abs_lt.mpr (by omega)) hk
  have hvalue : ((m <<< 53 : ℕ) / n * 2 ^ (e - f - 53) : ℚ) = m * 2 ^ e / (n * 2 ^ f) := by
    have hshift := shiftLeft_mul_zpow m 53 (e - f)
    rw [Nat.cast_ofNat] at hshift
    rw [div_mul_eq_mul_div, hshift, zpow_sub₀ two_ne_zero]
    field_simp
  have hcore := divCore_eq (e := e) (f := f) ((Nat.log2_eq_iff hm.ne').mpr ⟨hmlow, hmhigh⟩)
    ((Nat.log2_eq_iff hn.ne').mpr ⟨hnlow, hnhigh⟩) (by omega)
  have hdiv : UnpackedFloat.div .binary64 (.finite s m e hm) (.finite t n f hn) =
      roundWithAccuracy .binary64 (s / t) (m <<< 53 / n) (e - f - 53) (accuracyOfFraction (m <<< 53 % n) n) := by
    unfold UnpackedFloat.div
    dsimp only
    rw [hcore]
  exact ⟨z, hvalue ▸ hz, hdiv ▸ hdenotes⟩

theorem div_eq (x y : Float) :
    x / y = .ofModel (.pack (UnpackedFloat.div .binary64 x.toModel.unpack y.toModel.unpack)) := rfl

/-- Division rounds the exact quotient. -/
theorem HasValue.div (hx : HasValue k x p) (hy : HasValue k y q) (hp : 0 < p) (hq : 0 < q) (hk : k ≤ 400) :
    ∃ z, Rounds (p / q) z ∧ HasValue (2 * k + 54) (x / y) z := by
  obtain ⟨m, e, hm, hfx, hmlow, hmhigh, he, rfl⟩ := exists_finite hx hp
  obtain ⟨n, f, hn, hfy, hnlow, hnhigh, hf, rfl⟩ := exists_finite hy hq
  have hef : |e - f| + 53 < (2 * k + 54 : ℕ) := by
    have := abs_sub e f
    omega
  obtain ⟨z, hz, hdenotes⟩ := denotes_div .positive .positive hm hn hmlow hmhigh hnlow hnhigh hef (by omega)
  have happly : (((Sign.positive / Sign.positive).apply 1 : ℤ) : ℚ) * z = z := one_mul z
  rw [happly] at hdenotes
  refine ⟨z, hz, ?_⟩
  rw [div_eq, hfx, hfy]
  exact hasValue_pack_of_le hdenotes (by omega)

/-- Quotients of significands are around one, so a quotient of numbers tells about the difference of their exponents. -/
private theorem abs_sub_le_of_quotient {m n b : ℕ} {e f : ℤ} (hmlow : 2 ^ 52 ≤ m) (hmhigh : m < 2 ^ 53)
    (hnlow : 2 ^ 52 ≤ n) (hnhigh : n < 2 ^ 53) (hlow : (2 : ℚ) ^ (-b : ℤ) ≤ m * 2 ^ e / (n * 2 ^ f))
    (hhigh : (m * 2 ^ e / (n * 2 ^ f) : ℚ) ≤ 2 ^ (b : ℤ)) : |e - f| ≤ b := by
  have hm : (2 ^ 52 : ℚ) ≤ m := by exact_mod_cast hmlow
  have hm' : (m : ℚ) < 2 ^ 53 := by exact_mod_cast hmhigh
  have hn : (2 ^ 52 : ℚ) ≤ n := by exact_mod_cast hnlow
  have hn' : (n : ℚ) < 2 ^ 53 := by exact_mod_cast hnhigh
  have hunit : (0 : ℚ) < 2 ^ (e - f) := zpow_pos two_pos _
  have hquotient : (m * 2 ^ e / (n * 2 ^ f) : ℚ) = m / n * 2 ^ (e - f) := by
    rw [zpow_sub₀ two_ne_zero, mul_div_mul_comm]
  have hless : (m / n : ℚ) < 2 := by rw [div_lt_iff₀ (by linarith)]; linarith
  have hmore : (1 / 2 : ℚ) < m / n := by rw [lt_div_iff₀ (by linarith)]; linarith
  rw [hquotient] at hlow hhigh
  have hexponent : (2 : ℚ) ^ (e - f) < 2 ^ (b + 1 : ℤ) := by
    rw [zpow_add_one₀ two_ne_zero]
    linarith [mul_lt_mul_of_pos_right hmore hunit]
  have hexponent' : (2 : ℚ) ^ (-b : ℤ) < 2 ^ (e - f + 1) := by
    rw [zpow_add_one₀ two_ne_zero]
    linarith [mul_lt_mul_of_pos_right hless hunit]
  have hlt := (zpow_lt_zpow_iff_right₀ one_lt_two).mp hexponent
  have hlt' := (zpow_lt_zpow_iff_right₀ one_lt_two).mp hexponent'
  exact abs_le.mpr (by omega)

/-- Division rounds the exact quotient, however large its operands are. -/
theorem HasValue.div_of_moderate {b : ℕ} (hx : HasValue k x p) (hy : HasValue l y q) (hp : p ≠ 0) (hq : 0 < q)
    (hb : b ≤ 1002) (hlow : (2 : ℚ) ^ (-b : ℤ) ≤ |p| / q) (hhigh : |p| / q ≤ 2 ^ (b : ℤ)) :
    ∃ z, Rounds (|p| / q) |z| ∧ 0 < z * p ∧ HasValue 1074 (x / y) z := by
  have hpq : 0 < |p| / q := div_pos (abs_pos.mpr hp) hq
  obtain ⟨s, m, e, hm, hfx, hmlow, hmhigh, -, rfl⟩ := exists_finite_of_ne hx hp
  obtain ⟨n, f, hn, hfy, hnlow, hnhigh, -, rfl⟩ := exists_finite hy hq
  rw [abs_apply_mul] at hpq hlow hhigh ⊢
  have hef := abs_sub_le_of_quotient hmlow hmhigh hnlow hnhigh hlow hhigh
  obtain ⟨z, hz, hdenotes⟩ := denotes_div s .positive hm hn hmlow hmhigh hnlow hnhigh
    (by omega : |e - f| + 53 < (1074 : ℕ)) le_rfl
  have hsign : s / .positive = s := by cases s <;> rfl
  have habs : |((s.apply 1 : ℤ) : ℚ) * z| = z := by
    rw [abs_mul, abs_of_nonneg hz.nonneg_right]
    cases s <;> simp [Sign.apply]
  have hle : z ≤ 2 ^ (b : ℤ) := hz.le_of_le ⟨1, b, by norm_num, by rw [Int.cast_one, one_mul]⟩ hhigh
  rw [hsign] at hdenotes
  refine ⟨_, habs.symm ▸ hz, ?_, ?_⟩
  · have hproduct : ((s.apply 1 : ℤ) * z * ((s.apply m : ℤ) * 2 ^ e) : ℚ) = z * (m * 2 ^ e) := by
      cases s <;> simp [Sign.apply]
    rw [hproduct]
    exact mul_pos (hz.pos_right hpq) (by positivity)
  · rw [div_eq, hfx, hfy]
    refine hasValue_pack hdenotes le_rfl ?_
    rw [habs, ← zpow_natCast]
    exact hle.trans_lt (zpow_lt_zpow_right₀ one_lt_two (by omega))

private theorem denotes_normalize {n e : ℤ} (h : n ≠ 0 → |e + n.natAbs.log2 - 52| < k) (hk : k ≤ 900) (s : Sign) :
    ∃ z, Rounds |n * 2 ^ e| |z| ∧ Denotes k (UnpackedFloat.normalize .binary64 n e s) z := by
  have hunit : (0 : ℚ) < 2 ^ e := zpow_pos two_pos e
  have key (s' : Sign) (hn : n ≠ 0) :
      ∃ z, Rounds |n * 2 ^ e| |z| ∧ Denotes k (UnpackedFloat.round .binary64 s' n.natAbs e) z := by
    obtain ⟨z, hz, hdenotes⟩ := denotes_round (s := s') (Int.natAbs_pos.mpr hn) (h hn) (by omega)
    have habs : |((s'.apply 1 : ℤ) * z : ℚ)| = z := by
      rw [abs_mul, abs_of_nonneg hz.nonneg_right]
      cases s' <;> simp [Sign.apply]
    refine ⟨_, ?_, hdenotes⟩
    rw [habs, abs_mul, abs_of_pos hunit, ← Int.cast_abs, Int.abs_eq_natAbs, Int.cast_natCast]
    exact hz
  unfold UnpackedFloat.normalize
  rcases lt_trichotomy n 0 with hneg | rfl | hpos
  · have hnat : (-n).toNat = n.natAbs := by omega
    rw [Int.compare_eq_lt.mpr hneg, hnat]
    exact key .negative hneg.ne
  · refine ⟨0, ?_, .zero s⟩
    rw [Int.cast_zero, zero_mul, abs_zero]
    exact .zero
  · have hnat : n.toNat = n.natAbs := by omega
    rw [Int.compare_eq_gt.mpr hpos, hnat]
    exact key .positive hpos.ne'

/-- The difference of two significands in units of the smaller exponent. -/
private def aligned (m n : ℕ) (e f : ℤ) : ℤ :=
  (m <<< (e - min e f).toNat : ℕ) - (n <<< (f - min e f).toNat : ℕ)

private theorem aligned_mul_zpow (m n : ℕ) (e f : ℤ) :
    (aligned m n e f * 2 ^ min e f : ℚ) = m * 2 ^ e - n * 2 ^ f := by
  have hvalue (m : ℕ) {e' : ℤ} (he' : min e f ≤ e') :
      ((m <<< (e' - min e f).toNat : ℕ) * 2 ^ min e f : ℚ) = m * 2 ^ e' := by
    rw [← shiftLeft_mul_zpow m (e' - min e f).toNat e', Int.toNat_of_nonneg (by omega), sub_sub_cancel]
  rw [aligned, Int.cast_sub, Int.cast_natCast, Int.cast_natCast, sub_mul, hvalue m (min_le_left e f),
    hvalue n (min_le_right e f)]

private theorem log2_aligned {m n : ℕ} {e f : ℤ} (hm : m < 2 ^ 53) (hn : n < 2 ^ 53) (hne : aligned m n e f ≠ 0) :
    min e f + (aligned m n e f).natAbs.log2 < 53 + max e f := by
  have hshift {m c : ℕ} (hm : m < 2 ^ 53) (hc : c ≤ (max e f - min e f).toNat) :
      m <<< c < 2 ^ (53 + (max e f - min e f).toNat) := by
    rw [Nat.shiftLeft_eq, pow_add]
    exact Nat.mul_lt_mul_of_lt_of_le hm (Nat.pow_le_pow_right two_pos hc) (by positivity)
  have hm' := hshift hm (c := (e - min e f).toNat) (by omega)
  have hn' := hshift hn (c := (f - min e f).toNat) (by omega)
  have hlog : (aligned m n e f).natAbs.log2 < 53 + (max e f - min e f).toNat := by
    rw [Nat.log2_lt (Int.natAbs_ne_zero.mpr hne), aligned]
    generalize m <<< (e - min e f).toNat = m at hm'
    generalize n <<< (f - min e f).toNat = n at hn'
    omega
  omega

/-- Subtraction rounds the exact difference. -/
theorem HasValue.sub (hx : HasValue k x p) (hy : HasValue k y q) (hp : 0 < p) (hq : 0 < q) (hk : k ≤ 400) :
    ∃ z, Rounds |p - q| |z| ∧ HasValue (k + 53) (x - y) z := by
  obtain ⟨m, e, hm, hfx, hmlow, hmhigh, he, rfl⟩ := exists_finite hx hp
  obtain ⟨n, f, hn, hfy, hnlow, hnhigh, hf, rfl⟩ := exists_finite hy hq
  obtain ⟨helow, hehigh⟩ := abs_le.mp he
  obtain ⟨hflow, hfhigh⟩ := abs_le.mp hf
  have hdifference : x - y = .ofModel (.pack (UnpackedFloat.sub .binary64 x.toModel.unpack y.toModel.unpack)) := rfl
  have hsub : UnpackedFloat.sub .binary64 (.finite .positive m e hm) (.finite .positive n f hn) =
      UnpackedFloat.normalize .binary64 (aligned m n e f) (min e f) .positive := rfl
  have hexponent (hne : aligned m n e f ≠ 0) :
      |min e f + (aligned m n e f).natAbs.log2 - 52| < ((k + 53 : ℕ) : ℤ) := by
    have hlog := log2_aligned hmhigh hnhigh hne
    exact abs_lt.mpr (by omega)
  obtain ⟨z, hz, hdenotes⟩ := denotes_normalize hexponent (by omega) .positive
  rw [aligned_mul_zpow] at hz
  rw [hdifference, hfx, hfy, hsub]
  exact ⟨z, hz, hasValue_pack_of_le hdenotes (by omega)⟩

/-- The sign is dropped. -/
theorem HasValue.abs (hx : HasValue k x p) (hk : k ≤ 971) : HasValue k x.abs |p| := by
  have habs : x.abs = .ofModel (.pack (UnpackedFloat.abs x.toModel.unpack)) := rfl
  rw [habs]
  refine hasValue_pack_of_le ?_ hk
  unfold HasValue at hx
  generalize x.toModel.unpack = f at hx
  cases hx with
  | zero s =>
    rw [abs_zero]
    exact .zero _
  | @finite s m e hm hlow hhigh he =>
    have hvalue : |((s.apply m : ℤ) * 2 ^ e : ℚ)| = (Sign.positive.apply m : ℤ) * 2 ^ e := abs_apply_mul s m e
    rw [hvalue]
    exact .finite hm hlow hhigh he

private theorem mul_zpow_lt_iff {m n : ℕ} {e f : ℤ} (hm : 2 ^ 52 ≤ m) (hm' : m < 2 ^ 53) (hn : 2 ^ 52 ≤ n)
    (hn' : n < 2 ^ 53) : (m * 2 ^ e : ℚ) < n * 2 ^ f ↔ e < f ∨ e = f ∧ m < n := by
  have key {m n : ℕ} {e f : ℤ} (hm' : m < 2 ^ 53) (hn : 2 ^ 52 ≤ n) (hef : e < f) : (m * 2 ^ e : ℚ) < n * 2 ^ f :=
    calc (m * 2 ^ e : ℚ)
        < 2 ^ 53 * 2 ^ e := mul_lt_mul_of_pos_right (by exact_mod_cast hm') (zpow_pos two_pos e)
      _ = 2 ^ 52 * 2 ^ (e + 1) := by
          rw [zpow_add_one₀ two_ne_zero]
          ring
      _ ≤ n * 2 ^ f :=
          mul_le_mul (by exact_mod_cast hn) (zpow_le_zpow_right₀ one_le_two (by omega)) (by positivity) (by positivity)
  rcases lt_trichotomy e f with hlt | rfl | hgt
  · exact iff_of_true (key hm' hn hlt) (.inl hlt)
  · rw [mul_lt_mul_iff_left₀ (zpow_pos two_pos e), Nat.cast_lt]
    exact ⟨fun h => .inr ⟨rfl, h⟩, fun h => h.elim (absurd · (lt_irrefl e)) And.right⟩
  · exact iff_of_false (key hn' hm hgt).not_gt (by omega)

/-- Only zeros have the value zero. -/
theorem exists_zero (h : Denotes k f q) (hq : q = 0) : ∃ s, f = .zero s := by
  cases h with
  | zero s => exact ⟨s, rfl⟩
  | @finite s m e hm =>
    have hne : ((s.apply m : ℤ) : ℚ) ≠ 0 := by
      rw [Int.cast_ne_zero]
      cases s <;> simp [Sign.apply, hm.ne']
    exact absurd hq (mul_ne_zero hne (zpow_ne_zero e two_ne_zero))

/-- Doubles are compared by their values. -/
theorem HasValue.lt_iff (hx : HasValue k x p) (hy : HasValue l y q) (hp : 0 ≤ p) (hq : 0 ≤ q) : x < y ↔ p < q := by
  have hlt : x < y ↔ UnpackedFloat.compare x.toModel.unpack y.toModel.unpack = some .lt := by
    change decide (_ = true) = true ↔ _
    rw [decide_eq_true_iff]
    exact beq_iff_eq
  rw [hlt]
  rcases hp.eq_or_lt with rfl | hp <;> rcases hq.eq_or_lt with rfl | hq
  · obtain ⟨s, hfx⟩ := exists_zero hx rfl
    obtain ⟨t, hfy⟩ := exists_zero hy rfl
    rw [hfx, hfy]
    exact iff_of_false (show some Ordering.eq ≠ some .lt by decide) (lt_irrefl 0)
  · obtain ⟨s, hfx⟩ := exists_zero hx rfl
    obtain ⟨n, f, hn, hfy, -⟩ := exists_finite hy hq
    rw [hfx, hfy]
    exact iff_of_true rfl hq
  · obtain ⟨m, e, hm, hfx, -⟩ := exists_finite hx hp
    obtain ⟨t, hfy⟩ := exists_zero hy rfl
    rw [hfx, hfy]
    exact iff_of_false (show some Ordering.gt ≠ some .lt by decide) hp.not_gt
  · obtain ⟨m, e, hm, hfx, hmlow, hmhigh, -, rfl⟩ := exists_finite hx hp
    obtain ⟨n, f, hn, hfy, hnlow, hnhigh, -, rfl⟩ := exists_finite hy hq
    have hcompare : UnpackedFloat.compare (.finite .positive m e hm) (.finite .positive n f hn) =
        some ((compare e f).then (compare m n)) := rfl
    rw [hfx, hfy, hcompare, Option.some.injEq, Ordering.then_eq_lt, Int.compare_eq_lt, Int.compare_eq_eq,
      Nat.compare_eq_lt, mul_zpow_lt_iff hmlow hmhigh hnlow hnhigh]

end Operations

section Integers

private theorem shiftToNearest_spec (n places : ℕ) : n / 2 ^ places ≤ shiftToNearest n places ∧
    shiftToNearest n places ≤ n / 2 ^ places + 1 ∧
    |(n - shiftToNearest n places * 2 ^ places : ℚ)| ≤ 2 ^ places / 2 := by
  have hsplit : (n : ℚ) = (n / 2 ^ places : ℕ) * 2 ^ places + (n % 2 ^ places : ℕ) := by
    exact_mod_cast (Nat.div_add_mod' n (2 ^ places)).symm
  have hmod : n % 2 ^ places < 2 ^ places := Nat.mod_lt n (by positivity)
  have hmod' : ((n % 2 ^ places : ℕ) : ℚ) < 2 ^ places := by exact_mod_cast hmod
  have hmod0 : (0 : ℚ) ≤ (n % 2 ^ places : ℕ) := Nat.cast_nonneg _
  unfold shiftToNearest
  dsimp only
  rw [Nat.one_shiftLeft, Nat.shiftRight_eq_div_pow]
  split
  · rename_i hup
    have hhalf : 2 ^ places ≤ 2 * (n % 2 ^ places) := by omega
    have hhalf' : (2 ^ places : ℚ) ≤ 2 * (n % 2 ^ places : ℕ) := by exact_mod_cast hhalf
    refine ⟨Nat.le_succ _, le_rfl, ?_⟩
    rw [Nat.cast_add, Nat.cast_one, add_mul, one_mul, abs_le]
    constructor <;> linarith
  · rename_i hdown
    have hhalf : 2 * (n % 2 ^ places) ≤ 2 ^ places := by omega
    have hhalf' : 2 * ((n % 2 ^ places : ℕ) : ℚ) ≤ 2 ^ places := by exact_mod_cast hhalf
    refine ⟨le_rfl, Nat.le_succ _, ?_⟩
    rw [abs_le]
    constructor <;> linarith

/-- The first 53 bits of a whole number, rounded. They are 54 when the rounding carries. -/
private def significand (n : ℕ) : ℕ :=
  if n.log2 ≤ 52 then n <<< (52 - n.log2) else shiftToNearest n (n.log2 - 52)

private theorem nearestBits_eq {n : ℕ} (hn : n ≠ 0) :
    nearestBits n = min ((n.log2 + 1022) <<< 52 + significand n) infinityBits :=
  if_neg hn

private theorem significand_spec {n : ℕ} (hn : n ≠ 0) : 2 ^ 52 ≤ significand n ∧ significand n ≤ 2 ^ 53 ∧
    |(n - significand n * 2 ^ (n.log2 - 52 : ℤ) : ℚ)| ≤ 2 ^ (n.log2 - 52 : ℤ) / 2 := by
  obtain ⟨hlow, hhigh⟩ := (Nat.log2_eq_iff hn).mp rfl
  unfold significand
  rcases le_or_gt n.log2 52 with hle | hgt
  · have hlog' := log2_shiftLeft hn (52 - n.log2)
    rw [Nat.add_sub_cancel' hle] at hlog'
    have hne : n <<< (52 - n.log2) ≠ 0 := by
      rw [Nat.shiftLeft_eq]
      exact Nat.mul_ne_zero hn (by positivity)
    obtain ⟨hlow', hhigh'⟩ := (Nat.log2_eq_iff hne).mp hlog'
    have hvalue : ((n <<< (52 - n.log2) : ℕ) * 2 ^ (n.log2 - 52 : ℤ) : ℚ) = n := by
      have hshift := shiftLeft_mul_zpow n (52 - n.log2) 0
      rw [zpow_zero, mul_one, Nat.cast_sub hle, Nat.cast_ofNat, zero_sub, neg_sub] at hshift
      exact hshift
    rw [if_pos hle, hvalue, sub_self, abs_zero]
    exact ⟨hlow', hhigh'.le, by positivity⟩
  · obtain ⟨hS, hS', hoff⟩ := shiftToNearest_spec n (n.log2 - 52)
    have hlow' : 2 ^ 52 ≤ n / 2 ^ (n.log2 - 52) := by
      rw [Nat.le_div_iff_mul_le (by positivity), ← pow_add, Nat.add_sub_cancel' hgt.le]
      exact hlow
    have hhigh' : n / 2 ^ (n.log2 - 52) < 2 ^ 53 := by
      rw [Nat.div_lt_iff_lt_mul (by positivity), ← pow_add, show 53 + (n.log2 - 52) = n.log2 + 1 by omega]
      exact hhigh
    have hexponent : (2 : ℚ) ^ (n.log2 - 52 : ℤ) = 2 ^ (n.log2 - 52) := by
      rw [← zpow_natCast, Nat.cast_sub hgt.le, Nat.cast_ofNat]
    rw [if_neg hgt.not_ge, hexponent]
    exact ⟨hlow'.trans hS, by omega, hoff⟩

/-- The least whole number that is infinite as a double. It is halfway from the largest double to the next power of two,
and such a tie goes to the even neighbour. -/
@[irreducible] def overflow : ℕ :=
  2 ^ 1024 - 2 ^ 970

private theorem overflow_add : overflow + 2 ^ 970 = 2 ^ 53 * (2 * 2 ^ 970) := by
  decide +kernel

private theorem significand_overflow : significand overflow = 2 ^ 53 := by
  decide +kernel

/-- The exponent of a whole number, with the carry of its rounding, exceeds those of the finite doubles just from there
on. -/
private theorem exponent_le_iff {n : ℕ} (hn : n ≠ 0) : n.log2 + significand n / 2 ^ 53 ≤ 1023 ↔ n < overflow := by
  obtain ⟨-, hhigh, hoff⟩ := significand_spec hn
  rcases lt_trichotomy n.log2 1023 with hlt | heq | hgt
  · exact iff_of_true (by omega) (((Nat.log2_lt hn).mp hlt).trans (by decide +kernel))
  · have hexponent : (2 : ℚ) ^ (n.log2 - 52 : ℤ) = 2 * (2 ^ 970 : ℕ) := by
      rw [heq, Nat.cast_pow, Nat.cast_two, mul_comm, ← pow_succ]
      exact zpow_natCast 2 971
    have hoverflow := overflow_add
    have hunit : 0 < 2 ^ 970 := pow_pos two_pos 970
    rw [hexponent, mul_div_cancel_left₀ _ two_ne_zero] at hoff
    generalize 2 ^ 970 = unit at hoff hoverflow hunit
    rw [← Nat.cast_inj (R := ℚ)] at hoverflow
    rw [← Nat.cast_pos (α := ℚ)] at hunit
    push_cast at hoverflow
    obtain ⟨hoff₁, hoff₂⟩ := abs_le.mp hoff
    constructor
    · intro h
      have hS : ((significand n : ℕ) : ℚ) ≤ 2 ^ 53 - 1 := by
        rw [le_sub_iff_add_le]
        exact_mod_cast (by omega : significand n + 1 ≤ 2 ^ 53)
      have hle := mul_le_mul_of_nonneg_right hS (mul_pos two_pos hunit).le
      refine lt_of_le_of_ne (Nat.cast_le (α := ℚ).mp (by linarith)) fun htie => ?_
      have hcarry : significand n = 2 ^ 53 := htie ▸ significand_overflow
      omega
    · intro h
      by_contra hcarry
      have hS : significand n = 2 ^ 53 := by omega
      rw [hS, Nat.cast_pow, Nat.cast_ofNat] at hoff₁
      exact absurd h (Nat.cast_le (α := ℚ).mp (by linarith)).not_gt
  · refine iff_of_false (by omega) (Nat.not_lt.mpr (le_trans ?_ ((Nat.le_log2 hn).mp hgt)))
    decide +kernel

private theorem denotes_fields (s : Sign) {k E M : ℕ} (hlow : 1 ≤ E) (hhigh : E ≤ 2046) (hE : |(E - 1075 : ℤ)| ≤ k)
    (hM : M < 2 ^ 52) :
    Denotes k (UnpackedFloat.unpack .binary64 (packComponents .binary64 s (.ofNat 11 E) (.ofNat 52 M)))
      ((s.apply (2 ^ 52 + M : ℕ) : ℤ) * 2 ^ (E - 1075 : ℤ)) := by
  have hEnat : (BitVec.ofNat 11 E).toNat = E := Nat.mod_eq_of_lt (by omega)
  have hMnat : (BitVec.ofNat 52 M).toNat = M := Nat.mod_eq_of_lt hM
  have hne {c : BitVec 11} (hc : c.toNat = 0 ∨ c.toNat = 2047) : BitVec.ofNat 11 E ≠ c := by
    rintro rfl
    omega
  have hunpack : UnpackedFloat.unpack .binary64 (packComponents .binary64 s (.ofNat 11 E) (.ofNat 52 M)) =
      .finite s (2 ^ 52 + M) (E - 1075) (by omega) := by
    rw [unpack_packComponents s (hne (.inl rfl)) (hne (.inr rfl)), UnpackedFloat.finite.injEq, hEnat, hMnat]
    exact ⟨rfl, rfl, rfl⟩
  rw [hunpack]
  exact .finite (by omega) (by omega) (by omega) hE

private theorem ofNat_fields (s : Sign) {E M : ℕ} (hE : E < 2 ^ 11) (hM : M < 2 ^ 52) :
    BitVec.ofNat 64 (E <<< 52 + M + s.toBitVec.toNat <<< 63) =
      packComponents .binary64 s (.ofNat 11 E) (.ofNat 52 M) := by
  have hEnat : (BitVec.ofNat 11 E).toNat = E := Nat.mod_eq_of_lt hE
  have hMnat : (BitVec.ofNat 52 M).toNat = M := Nat.mod_eq_of_lt hM
  apply BitVec.eq_of_toNat_eq
  change _ = (s.toBitVec ++ BitVec.ofNat 11 E ++ BitVec.ofNat 52 M).toNat
  rw [BitVec.toNat_append, BitVec.toNat_append, hEnat, hMnat, ← Nat.shiftLeft_add_eq_or_of_lt hM,
    ← Nat.shiftLeft_add_eq_or_of_lt hE, BitVec.toNat_ofNat, Nat.shiftLeft_eq, Nat.shiftLeft_eq, Nat.shiftLeft_eq,
    Nat.shiftLeft_eq, Nat.mod_eq_of_lt]
  · omega
  · have hsign := s.toBitVec.isLt
    omega

/-- A rounded significand below its exponent: when it has 54 bits, it carries into the exponent field. -/
private theorem denotes_significand (s : Sign) {k L S : ℕ} (hlow : 2 ^ 52 ≤ S) (hhigh : S ≤ 2 ^ 53)
    (hL : L + S / 2 ^ 53 ≤ k + 52) (hk : 52 ≤ k) (hk' : k ≤ 971) :
    Denotes k (UnpackedFloat.unpack .binary64 (BitVec.ofNat 64 ((L + 1022) <<< 52 + S + s.toBitVec.toNat <<< 63)))
      ((s.apply S : ℤ) * 2 ^ (L - 52 : ℤ)) := by
  rcases hhigh.lt_or_eq with hlt | rfl
  · have hfields : (L + 1022) <<< 52 + S = (L + 1023) <<< 52 + (S - 2 ^ 52) := by
      rw [Nat.shiftLeft_eq, Nat.shiftLeft_eq]
      omega
    have hexponent : (L - 52 : ℤ) = (L + 1023 : ℕ) - 1075 := by omega
    have hdenotes := denotes_fields s (k := k) (E := L + 1023) (M := S - 2 ^ 52) (by omega) (by omega)
      (abs_le.mpr (by omega)) (by omega)
    rw [Nat.add_sub_cancel' hlow] at hdenotes
    rw [hfields, hexponent, ofNat_fields s (by omega) (by omega)]
    exact hdenotes
  · have hfields : (L + 1022) <<< 52 + 2 ^ 53 = (L + 1024) <<< 52 + 0 := by
      rw [Nat.shiftLeft_eq, Nat.shiftLeft_eq]
      omega
    have hexponent : (L - 52 + 1 : ℤ) = (L + 1024 : ℕ) - 1075 := by omega
    have hvalue : ((s.apply (2 ^ 53 : ℕ) : ℤ) * 2 ^ (L - 52 : ℤ) : ℚ) =
        (s.apply (2 ^ 52 + 0 : ℕ) : ℤ) * 2 ^ (L - 52 + 1 : ℤ) := by
      rw [zpow_add_one₀ two_ne_zero]
      cases s <;> norm_num [Sign.apply] <;> ring
    rw [hfields, hvalue, hexponent, ofNat_fields s (by omega) (by positivity)]
    exact denotes_fields s (by omega) (by omega) (abs_le.mpr (by omega)) (by positivity)

private def signOf (n : ℤ) : Sign :=
  if n < 0 then .negative else .positive

private theorem apply_signOf_mul (n : ℤ) (m : ℕ) : (signOf n).apply m * n = m * |n| := by
  unfold signOf
  split
  · rename_i hneg
    rw [abs_of_neg hneg, mul_neg]
    exact neg_mul _ _
  · rename_i hpos
    rw [abs_of_nonneg (not_lt.mp hpos)]
    rfl

private theorem ofInt_eq (n : ℤ) : ofInt n = .ofModel (.pack (UnpackedFloat.unpack .binary64
    (BitVec.ofNat 64 (nearestBits n.natAbs + (signOf n).toBitVec.toNat <<< 63)))) := by
  unfold ofInt signOf
  split <;> rfl

private theorem hasValue_ofInt_of_exponent {n : ℤ} {k : ℕ} (h0 : n ≠ 0)
    (hlog : n.natAbs.log2 + significand n.natAbs / 2 ^ 53 ≤ k + 52) (hk : 52 ≤ k) (hk' : k ≤ 971) :
    ∃ z, Rounds |(n : ℚ)| |z| ∧ 0 < z * n ∧ HasValue k (ofInt n) z := by
  have hn : n.natAbs ≠ 0 := Int.natAbs_ne_zero.mpr h0
  obtain ⟨hlow, hhigh, hoff⟩ := significand_spec hn
  have habs : |(n : ℚ)| = n.natAbs := by rw [Nat.cast_natAbs, Int.cast_abs]
  have hlead : ((2 ^ n.natAbs.log2 : ℕ) : ℚ) ≤ n.natAbs := Nat.cast_le.mpr ((Nat.log2_eq_iff hn).mp rfl).1
  have hfinite : (n.natAbs.log2 + 1022) <<< 52 + significand n.natAbs ≤ infinityBits := by
    have hinfinity : infinityBits = 2047 * 2 ^ 52 := by decide
    rw [hinfinity, Nat.shiftLeft_eq]
    omega
  refine ⟨((signOf n).apply (significand n.natAbs) : ℤ) * 2 ^ (n.natAbs.log2 - 52 : ℤ), ?_, ?_, ?_⟩
  · rw [abs_apply_mul, habs]
    refine .units ?_ hlow hhigh hoff
    rw [zpow_sub₀ two_ne_zero, zpow_natCast]
    rw [Nat.cast_pow, Nat.cast_two] at hlead
    norm_num
    linarith
  · have hproduct : 0 < (significand n.natAbs : ℤ) * |n| := mul_pos (by omega) (abs_pos.mpr h0)
    rw [mul_right_comm, ← Int.cast_mul, apply_signOf_mul]
    exact mul_pos (Int.cast_pos.mpr hproduct) (zpow_pos two_pos _)
  · rw [ofInt_eq, nearestBits_eq hn, min_eq_left hfinite]
    exact hasValue_pack_of_le (denotes_significand (signOf n) hlow hhigh hlog hk hk') hk'

/-- Integers that are too large are infinite. -/
theorem unpack_ofInt_of_overflow {n : ℤ} (hlt : overflow ≤ n.natAbs) : ∃ s, (ofInt n).toModel.unpack = .infinity s := by
  have hpos : 0 < overflow := by decide +kernel
  have hn : n.natAbs ≠ 0 := (hpos.trans_le hlt).ne'
  have hexponent := (exponent_le_iff hn).not.mpr hlt.not_gt
  obtain ⟨hlow, hhigh, -⟩ := significand_spec hn
  have hinfinite : infinityBits ≤ (n.natAbs.log2 + 1022) <<< 52 + significand n.natAbs := by
    have hinfinity : infinityBits = 2047 * 2 ^ 52 := by decide
    rw [hinfinity, Nat.shiftLeft_eq]
    omega
  refine ⟨signOf n, ?_⟩
  rw [ofInt_eq, nearestBits_eq hn, min_eq_right hinfinite]
  generalize signOf n = s
  cases s <;> rfl

theorem hasValue_ofInt_of_lt {n : ℤ} (h0 : n ≠ 0) (hlt : n.natAbs < overflow) :
    ∃ z, Rounds |(n : ℚ)| |z| ∧ 0 < z * n ∧ HasValue 971 (ofInt n) z :=
  hasValue_ofInt_of_exponent h0 ((exponent_le_iff (Int.natAbs_ne_zero.mpr h0)).mpr hlt) (by norm_num) le_rfl

/-- Positive 64-bit integers are rounded to 53 bits. -/
theorem hasValue_ofInt {n : ℤ} (hpos : 0 < n) (hlt : n < 2 ^ 63) : ∃ z, Rounds n z ∧ HasValue 52 (ofInt n) z := by
  have hn : n.natAbs ≠ 0 := Int.natAbs_ne_zero.mpr hpos.ne'
  have hlog : n.natAbs.log2 ≤ 62 := Nat.le_of_lt_succ ((Nat.log2_lt hn).mpr (by omega))
  obtain ⟨-, hhigh, -⟩ := significand_spec hn
  obtain ⟨z, hz, hsign, hvalue⟩ := hasValue_ofInt_of_exponent (k := 52) hpos.ne' (by omega) le_rfl (by norm_num)
  have hpos' : (0 : ℚ) < n := Int.cast_pos.mpr hpos
  exact ⟨z, hz.of_abs hsign hpos', hvalue⟩

end Integers

end WeightedCnf.Binary64

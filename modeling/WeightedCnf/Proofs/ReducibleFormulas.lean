import WeightedCnf.Proofs.BufferedReading
import WeightedCnf.Proofs.DyadicSize
import WeightedCnf.Proofs.ModerateWeights

/-! What was read can be reduced. Machine words hold all numbers that come up, no division is by zero, and every chain
can be built, so that a reduction succeeds as long as there are enough variables. -/
namespace WeightedCnf

/-- A chain of this number of models over so many literals can be built: a word of 128 bits holds the number of all
models, which is large enough, and the literal of the lowest digit one exists. -/
structure Chain.IsSafe (literalCount count : Nat) : Prop where
  word : 2 ^ literalCount < 2 ^ 128
  literals : count = 0 → 0 < literalCount
  count_le : count ≤ 2 ^ literalCount
  digit : 0 < count → count < 2 ^ literalCount →
    ∃ i < literalCount, count.testBit i = true ∧ ∀ j < i, count.testBit j = false

private theorem Chain.isSafe {literalCount count : Nat} (hword : literalCount < 128) (hpos : 0 < count)
    (hle : count ≤ 2 ^ literalCount) : IsSafe literalCount count where
  word := Nat.pow_lt_pow_right one_lt_two hword
  literals hzero := absurd hzero hpos.ne'
  count_le := hle
  digit _ hlt := by
    have hdigit : ∃ i, count.testBit i = true := Nat.exists_testBit_of_ne_zero hpos.ne'
    refine ⟨Nat.find hdigit, ?_, Nat.find_spec hdigit, fun j hj => ?_⟩
    · refine Nat.lt_of_not_le fun hlarge => ?_
      have hzero := Nat.testBit_lt_two_pow (hlt.trans_le (Nat.pow_le_pow_right two_pos hlarge))
      exact absurd (Nat.find_spec hdigit) (by rw [hzero]; decide)
    · exact eq_false_of_ne_true (Nat.find_min hdigit hj)

private theorem bitLength_le {n k : Nat} (h : n < 2 ^ k) : bitLength n ≤ k := by
  unfold bitLength
  split
  · exact Nat.zero_le k
  · rename_i hn
    exact (Nat.log2_lt hn).mpr h

private theorem natAbs_toInt_le (n : Int64) : n.toInt.natAbs ≤ 2 ^ 63 := by
  have := n.le_toInt
  have := n.toInt_lt
  omega

namespace Shares
variable {s : Shares}

/-- Signed words of 128 bits hold all parts and their opposites. -/
structure Fits (s : Shares) : Prop where
  positive : s.positive.natAbs ≤ 2 ^ 126
  negative : s.negative.natAbs ≤ 2 ^ 126
  denominator : s.denominator.natAbs ≤ 2 ^ 126

private theorem fits_ofWeights (p n : Weight) : (ofWeights p n).Fits := by
  have hmul (a b : Int64) : (a.toInt * b.toInt).natAbs ≤ 2 ^ 126 := by
    rw [Int.natAbs_mul]
    exact (Nat.mul_le_mul (natAbs_toInt_le a) (natAbs_toInt_le b)).trans_eq (Nat.pow_add 2 63 63).symm
  have hword (a : Int64) : a.toInt.natAbs ≤ 2 ^ 126 := (natAbs_toInt_le a).trans (by norm_num)
  unfold ofWeights
  split
  · exact ⟨hword _, hword _, hword _⟩
  · exact ⟨hmul _ _, hmul _ _, hmul _ _⟩

private theorem Fits.normalize (h : s.Fits) (hd : s.denominator ≠ 0) : s.normalize.Fits := by
  obtain ⟨c, hc, hp, hn, hden, -⟩ := normalize_mul hd
  have hle {a b : Int} (hab : a = c * b) (ha : a.natAbs ≤ 2 ^ 126) : b.natAbs ≤ 2 ^ 126 := by
    rw [hab, Int.natAbs_mul] at ha
    exact (Nat.le_mul_of_pos_left _ (Int.natAbs_pos.mpr hc)).trans ha
  exact ⟨hle hp h.positive, hle hn h.negative, hle hden h.denominator⟩

end Shares

namespace Formula
variable {f : Formula} {v : Variable} {bits : Nat} {rounding : Rounding}

/-- What the exact reduction computes for a variable stays within range: the products for the common denominator and
their quotients by the greatest common divisor, which is not zero, and the chains for both values. -/
structure ExactFits (f : Formula) (v : Variable) : Prop where
  products : (Shares.ofWeights (f.weight v.positive) (f.weight v.negative)).Fits
  divisor : (f.weight v.positive).isValid = true → (f.weight v.negative).isValid = true →
    0 < (Shares.ofWeights (f.weight v.positive) (f.weight v.negative)).gcd
  quotients : (f.weight v.positive).isValid = true → (f.weight v.negative).isValid = true → (f.shares v).Fits
  chains : ¬ f.StaysAsIs v → ∀ share ∈ [(f.shares v).positive.toNat, (f.shares v).negative.toNat],
    share = 0 ∨ Chain.IsSafe (f.auxiliaryCount v) share

/-- No formula makes the exact reduction leave the range. -/
theorem exactFits (f : Formula) (v : Variable) : f.ExactFits v := by
  have hproducts := Shares.fits_ofWeights (f.weight v.positive) (f.weight v.negative)
  have hdenominator (hp : (f.weight v.positive).isValid = true) (hn : (f.weight v.negative).isValid = true) :
      (Shares.ofWeights (f.weight v.positive) (f.weight v.negative)).denominator ≠ 0 :=
    (Shares.ofWeights_ratio hp hn).1
  have hquotients (hp : (f.weight v.positive).isValid = true) (hn : (f.weight v.negative).isValid = true) :
      (f.shares v).Fits := hproducts.normalize (hdenominator hp hn)
  refine ⟨hproducts, fun hp hn => ?_, hquotients, fun hstays share hshare => ?_⟩
  · exact Nat.gcd_pos_of_pos_right _ (Int.natAbs_pos.mpr (hdenominator hp hn))
  · obtain ⟨hp, hn⟩ := isValid_of_not_skipped (not_or.mp hstays).1
    obtain ⟨hpositive, hnegative, -⟩ := hquotients hp hn
    have hbits := lt_two_pow_bitLength (max (f.shares v).positive.toNat (f.shares v).negative.toNat)
    have hword : bitLength (max (f.shares v).positive.toNat (f.shares v).negative.toNat) ≤ 127 :=
      bitLength_le (by omega)
    rw [auxiliaryCount, if_neg hstays]
    rcases Nat.eq_zero_or_pos share with hzero | hpos
    · exact .inl hzero
    · refine .inr (Chain.isSafe (by omega) hpos ?_)
      simp only [List.mem_cons, List.not_mem_nil, or_false] at hshare
      omega

/-- What the dyadic reduction computes for a variable stays within range: the new denominator, the lowest terms, the
scaled numerator and, where weights are rounded, the rounded weight with its complement and the chains for both. -/
structure RoundedFits (f : Formula) (bits : Nat) (rounding : Rounding) (v : Variable) : Prop where
  shift : (Int64.ofNat (1 <<< bits)).toInt = 2 ^ bits
  simplifiable : f.IsSimplifiable v
  scaled : ((f.weight v.positive).lowestTerms.num.toInt * 2 ^ bits).natAbs ≤ 2 ^ 125
  rounded : f.HasProbabilities v → 0 < (f.weight v.positive).lowestTerms.denom.toInt ∧
    ∃ w rest, ((f.weight v.positive).lowestTerms.round (.ofNat (1 <<< bits)) rounding).simplify = .ok w ∧
      w.isValid = true ∧ w.complement = .ok rest ∧ (w ≠ .half → w.num ≠ 0 → w.num ≠ w.denom →
        ∀ count ∈ [w.num.toInt.toNat, rest.num.toInt.toNat],
          Chain.IsSafe (bitLength (w.denom.toInt.toNat - 1)) count)

/-- A weight that can be simplified does not make the dyadic reduction leave the range. -/
theorem roundedFits (hlow : 1 ≤ bits) (hhigh : bits ≤ 62) (rounding : Rounding) (hsimplify : f.IsSimplifiable v) :
    f.RoundedFits bits rounding v where
  shift := toInt_shiftLeft hhigh
  simplifiable := hsimplify
  scaled := by
    rw [Int.natAbs_mul, Int.natAbs_pow]
    exact (Nat.mul_le_mul (natAbs_toInt_le _) (Nat.pow_le_pow_right two_pos hhigh)).trans_eq
      (Nat.pow_add 2 63 62).symm
  rounded h := by
    obtain ⟨p, w, hplowest, hp, hw, hlowest, h0, h1, -⟩ :=
      h.roundWeights_eq (two_le_denominator ⟨hlow, hhigh⟩) rounding
    obtain ⟨rest, hrest⟩ := (hlowest.isUnsigned h0).exists_complement
    obtain ⟨hrestnum, -⟩ := Weight.complement_eq_ok hrest
    rw [Weight.lowestTerms_of_simplify hp]
    refine ⟨hplowest.denom_pos, w, rest, hw, Weight.isValid_of_pos hlowest.denom_pos, hrest,
      fun _ hzero hone count hcount => ?_⟩
    obtain ⟨hpos, hlt⟩ := num_between hlowest h0 h1 hzero hone
    have hdigits := lt_two_pow_bitLength (w.denom.toInt.toNat - 1)
    have hdenom := w.denom.toInt_lt
    have hword : bitLength (w.denom.toInt.toNat - 1) ≤ 63 := bitLength_le (by omega)
    simp only [List.mem_cons, List.not_mem_nil, or_false] at hcount
    exact Chain.isSafe (by omega) (by omega) (by omega)

/-- A formula that was read can be reduced in both ways, whatever the text was and whether it was refused: nothing that
a reduction computes leaves its range, and with enough variables it succeeds. The dyadic reduction never comes upon a
weight that cannot be rounded. -/
theorem parse_reducible {source : Source} {format : WeightFormat} {log log' : Log}
    (hparse : parse source format log = .ok f log') :
    ((∀ v, f.ExactFits v) ∧
      (f.variableCount + ∑ v ∈ f.free, f.auxiliaryCount v ≤ Variable.limit → ∀ log₁,
        ∃ g d log₂, f.reduce log₁ = .ok (g, d) log₂ ∧
          g.variableCount = f.variableCount + ∑ v ∈ f.free, f.auxiliaryCount v)) ∧
    ∀ bits rounding, 1 ≤ bits → bits ≤ 62 → (∀ v, f.RoundedFits bits rounding v) ∧
      (f.variableCount + ∑ v ∈ f.free, f.roundedCount bits rounding v ≤ Variable.limit → ∀ log₁,
        ∃ g r log₂, f.reduceDyadic bits rounding log₁ = .ok (g, r) log₂ ∧
          g.variableCount = f.variableCount + ∑ v ∈ f.free, f.roundedCount bits rounding v ∧
          ∃ events, log₂.toList = log₁.toList ++ events ∧ ∀ v w, .unroundableWeight v w ∉ events) := by
  have hmoderate := isModerate_of_readFrom hparse
  have hsimplify (v : Variable) : f.IsSimplifiable v := fun l _ => (hmoderate.weight l).exists_simplify
  refine ⟨⟨f.exactFits, fun hvariables log₁ => ?_⟩, fun bits rounding hlow hhigh =>
    ⟨fun v => roundedFits hlow hhigh rounding (hsimplify v), fun hvariables log₁ => ?_⟩⟩
  · obtain ⟨⟨g, d⟩, log₂, hreduce, hextends⟩ := exists_reduce hvariables hmoderate.clauseCount_lt log₁
    exact ⟨g, d, log₂, hreduce, hextends.variableCount⟩
  · obtain ⟨g, r, log₂, hreduce, henlarges, hnever⟩ := exists_reduceDyadic hlow hhigh rounding
      (fun v _ => hsimplify v) hvariables hmoderate.clauseCount_lt log₁
    exact ⟨g, r, log₂, hreduce, henlarges.variableCount, hnever⟩

/-- A text with a weight of the largest denominator, which has a remainder that is as large. -/
def extremeSource : Source :=
  { content := Text.Utf8.encode "p cnf 2 0\nc ind 1 0\nw 1 1/9223372036854775807\n".toList }

theorem parse_reducible_extreme : ∃ f log, parse extremeSource .detect #[] = .ok f log ∧ f.variableCount = 2 ∧
    (∃ g d log₁, f.reduce log = .ok (g, d) log₁ ∧ g.variableCount = 65) ∧
    ∃ k r log₂, f.reduceDyadic 62 .near log = .ok (k, r) log₂ ∧ k.variableCount = 64 := by
  obtain ⟨f, log, hparse, hcount, hsupport, hexact, hrounded⟩ := parse_of_reads
    (rfl : extremeSource.ending = .endOfInput) .detect
    (fun f _ => f.variableCount = 2 ∧ f.support.toList = [.one] ∧ f.auxiliaryCount .one = 63 ∧
      f.roundedCount 62 .near .one = 62) (by decide +kernel)
  obtain ⟨⟨-, hreduce⟩, hdyadic⟩ := parse_reducible hparse
  obtain ⟨-, hround⟩ := hdyadic 62 .near (by decide) (by decide)
  simp only [free_eq_singleton hsupport, Finset.sum_singleton, hcount, hexact, hrounded] at hreduce hround
  obtain ⟨g, d, log₁, hg, hgcount⟩ := hreduce (by decide) log
  obtain ⟨k, r, log₂, hk, hkcount, -⟩ := hround (by decide) log
  exact ⟨f, log, hparse, hcount, ⟨g, d, log₁, hg, hgcount⟩, k, r, log₂, hk, hkcount⟩

end Formula
end WeightedCnf

import WeightedCnf.Proofs.DoubleFractions
import WeightedCnf.Proofs.DyadicBounds
import WeightedCnf.Proofs.ExactRounding
import WeightedCnf.Proofs.Verification

/-! The bounds that a run reports are doubles. They are near the exact bounds as long as the denominators of the adjusted
weights do not multiply up to more than a double can be. -/
namespace WeightedCnf
open Binary64

section Sizes

/-- Numerator and denominator are at most this. -/
structure Fits (size : ℕ) (q : ℚ) : Prop where
  num : q.num.natAbs ≤ size
  den : q.den ≤ size

variable {m n : ℕ} {p q : ℚ}

private theorem fits_div {a b : ℤ} (hb0 : b ≠ 0) (ha : a.natAbs ≤ n) (hb : b.natAbs ≤ n) : Fits n (a / b) := by
  rw [← Rat.divInt_eq_div]
  constructor
  · by_cases ha0 : a = 0
    · rw [ha0, Rat.zero_divInt]
      exact Nat.zero_le n
    · exact (Int.natAbs_le_of_dvd_ne_zero (Rat.num_dvd a hb0) ha0).trans ha
  · exact (Int.natAbs_le_of_dvd_ne_zero (Rat.den_dvd a b) hb0).trans hb

private theorem Fits.mul (hp : Fits m p) (hq : Fits n q) : Fits (m * n) (p * q) := by
  have hproduct : p * q = ((p.num * q.num : ℤ) : ℚ) / ((p.den * q.den : ℤ) : ℚ) := by
    rw [Int.cast_mul, Int.cast_mul, Int.cast_natCast, Int.cast_natCast, mul_div_mul_comm, p.num_div_den, q.num_div_den]
  rw [hproduct]
  refine fits_div (mul_ne_zero (by exact_mod_cast p.den_ne_zero) (by exact_mod_cast q.den_ne_zero)) ?_ ?_
  · rw [Int.natAbs_mul]
    exact Nat.mul_le_mul hp.num hq.num
  · rw [Int.natAbs_mul]
    exact Nat.mul_le_mul hp.den hq.den

private theorem fits_prod {α : Type} (size : α → ℕ) (f : α → ℚ) {as : List α} (h : ∀ a ∈ as, Fits (size a) (f a)) :
    Fits (as.map size).prod (as.map f).prod := by
  induction as with
  | nil => exact ⟨le_rfl, le_rfl⟩
  | cons a as ih =>
    obtain ⟨ha, has⟩ := List.forall_mem_cons.mp h
    exact ha.mul (ih has)

private theorem Fits.isModerate (h : Fits n q) (hn : n ≤ 2 ^ 1000) (hq : q ≠ 0) : IsModerate q := by
  have habs : |q| = q.num.natAbs / q.den := by
    rw [Nat.cast_natAbs, Int.cast_abs, ← Nat.abs_cast q.den, ← abs_div, q.num_div_den]
  have hden : (0 : ℚ) < q.den := Nat.cast_pos.mpr q.den_pos
  have hden1 : (1 : ℚ) ≤ q.den := Nat.one_le_cast.mpr q.den_pos
  have hnum1 : (1 : ℚ) ≤ q.num.natAbs := Nat.one_le_cast.mpr (Int.natAbs_pos.mpr (Rat.num_ne_zero.mpr hq))
  have hlarge {k : ℕ} (hk : k ≤ n) : (k : ℚ) ≤ 2 ^ (1000 : ℤ) := by
    have hle := Nat.cast_le (α := ℚ).mpr (hk.trans hn)
    rwa [Nat.cast_pow, Nat.cast_two, ← zpow_natCast] at hle
  constructor
  · rw [habs, zpow_neg, le_div_iff₀ hden, inv_mul_le_iff₀ (zpow_pos two_pos _)]
    exact (hlarge h.den).trans (le_mul_of_one_le_right (zpow_pos two_pos _).le hnum1)
  · rw [habs, div_le_iff₀ hden]
    exact (hlarge h.num).trans (le_mul_of_one_le_right (zpow_pos two_pos _).le hden1)

end Sizes

namespace Adjustment
variable {a : Adjustment}

/-- A probability that is rounded to one, over 62 binary digits at most. -/
structure IsRounding (a : Adjustment) : Prop where
  pos : 0 < a.original.denom.toInt
  nonneg : 0 ≤ a.original.num.toInt
  le : a.original.num.toInt ≤ a.original.denom.toInt
  rounded_pos : 0 < a.rounded.denom.toInt
  rounded_nonneg : 0 ≤ a.rounded.num.toInt
  rounded_le : a.rounded.num.toInt ≤ a.rounded.denom.toInt
  rounded_small : a.rounded.denom.toInt ≤ 2 ^ 62

/-- The size of both factors of an adjustment: the product of its denominators. -/
def size (a : Adjustment) : ℕ :=
  a.original.denom.toInt.toNat * a.rounded.denom.toInt.toNat

private theorem IsRounding.size_le (h : a.IsRounding) : a.size ≤ 2 ^ 125 := by
  have hlt := a.original.denom.toInt_lt
  have hsmall := h.rounded_small
  calc a.size
      ≤ 2 ^ 63 * 2 ^ 62 := Nat.mul_le_mul (by omega) (by omega)
    _ = 2 ^ 125 := by norm_num

private theorem fits_ratio {x d y e : ℤ} (hd : 0 < d) (he : 0 < e) (hx : 0 ≤ x) (hxd : x ≤ d) (hy : 0 < y)
    (hye : y ≤ e) : Fits (d.toNat * e.toNat) ((x / d) / (y / e)) := by
  have hvalue : (x / d / (y / e) : ℚ) = ((x * e : ℤ) : ℚ) / ((d * y : ℤ) : ℚ) := by
    rw [div_div_div_eq, Int.cast_mul, Int.cast_mul]
  rw [hvalue]
  refine fits_div (mul_pos hd hy).ne' ?_ ?_ <;> rw [Int.natAbs_mul] <;>
    exact Nat.mul_le_mul (by omega) (by omega)

private theorem one_sub_rat {w : Weight} (hd : 0 < w.denom.toInt) :
    1 - w.rat = ((w.denom.toInt - w.num.toInt : ℤ) : ℚ) / w.denom.toInt := by
  rw [Int.cast_sub, sub_div, div_self (Int.cast_ne_zero.mpr hd.ne'), Weight.rat]

private theorem IsRounding.fits_bounds (h : a.IsRounding) : Fits a.size a.bounds.1 ∧ Fits a.size a.bounds.2 := by
  have hone : Fits a.size 1 := by
    have hsize : 1 ≤ a.size := Nat.mul_pos (by have := h.pos; omega) (by have := h.rounded_pos; omega)
    exact ⟨hsize, hsize⟩
  rw [bounds, DyadicReduction.widen, Weight.toRat?_eq (Weight.isValid_of_pos h.pos),
    Weight.toRat?_eq (Weight.isValid_of_pos h.rounded_pos)]
  dsimp only
  split
  · exact ⟨hone, hone⟩
  rename_i hsame
  obtain ⟨-, hzero, hone'⟩ : a.original.rat ≠ a.rounded.rat ∧ a.rounded.rat ≠ 0 ∧ a.rounded.rat ≠ 1 := by
    simpa only [not_or] using hsame
  rw [ne_eq, Weight.rat_eq_zero_iff h.rounded_pos] at hzero
  rw [ne_eq, Weight.rat_eq_one_iff h.rounded_pos] at hone'
  have hnonneg := h.rounded_nonneg
  have hle := h.rounded_le
  have hpositive : Fits a.size (a.original.rat / a.rounded.rat) :=
    fits_ratio h.pos h.rounded_pos h.nonneg h.le (by omega) h.rounded_le
  have hnegative : Fits a.size ((1 - a.original.rat) / (1 - a.rounded.rat)) := by
    rw [one_sub_rat h.pos, one_sub_rat h.rounded_pos]
    have := h.nonneg
    have := h.le
    exact fits_ratio h.pos h.rounded_pos (by omega) (by omega) (by omega) (by omega)
  split <;> rw [one_mul, one_mul]
  · exact ⟨hnegative, hpositive⟩
  · exact ⟨hpositive, hnegative⟩

/-- The exact bounds have no larger components than the sizes of the adjustments multiply up to. -/
theorem fits_bounds {r : DyadicReduction} (h : ∀ a ∈ r.adjustments, a.IsRounding) :
    Fits (r.adjustments.map size).prod r.bounds.1 ∧ Fits (r.adjustments.map size).prod r.bounds.2 := by
  rw [DyadicReduction.bounds, foldl_widen, one_mul, one_mul]
  exact ⟨fits_prod size _ fun a ha => (h a ha).fits_bounds.1, fits_prod size _ fun a ha => (h a ha).fits_bounds.2⟩

private theorem prod_size_le {as : List Adjustment} (h : ∀ a ∈ as, a.IsRounding) (hfew : as.length ≤ 8) :
    (as.map size).prod ≤ 2 ^ 1000 := by
  have hle := List.prod_le_pow_card (as.map size) (2 ^ 125) (List.forall_mem_map.mpr fun a ha => (h a ha).size_le)
  rw [List.length_map, ← pow_mul] at hle
  have hexponent : 125 * as.length ≤ 1000 := by omega
  exact hle.trans (pow_le_pow_right₀ one_le_two hexponent)

end Adjustment

namespace Formula
variable {f g : Formula} {v : Variable} {d bits : Nat} {rounding : Rounding} {log log' : Log}

private theorem denominator_le {bits : Nat} (hbits : 1 ≤ bits ∧ bits ≤ DyadicReduction.maxBits) :
    (Int64.ofNat (1 <<< bits)).toInt ≤ 2 ^ 62 := by
  rw [toInt_shiftLeft hbits.2]
  exact pow_le_pow_right₀ one_le_two hbits.2

private theorem isRounding_of_roundWeights {denom : Int64} (hD : 2 ≤ denom.toInt) (hD' : denom.toInt ≤ 2 ^ 62)
    {as : List Adjustment} (h : f.roundWeights denom rounding v log = .ok (g, d, as) log') :
    ∀ a ∈ as, a.IsRounding := by
  cases treatment_of_roundWeights h with
  | unweighted => nofun
  | skipped => nofun
  | @rounded p n w _ _ _ _ _ _ hpd _ hsum hp hn hround _ =>
    have hle : p.num.toInt ≤ p.denom.toInt := by omega
    obtain ⟨hwd, hw0, hw1, -, -⟩ := Weight.simplify_round_eq_ok hpd hp hle hD hround
    obtain ⟨m, hm, -⟩ := Weight.round_eq hpd hp hle hD rounding
    obtain ⟨c, hc, -, hdenom⟩ := Weight.simplify_eq_ok hround
    rw [hm] at hdenom
    have hsmall : w.denom.toInt ≤ denom.toInt := hdenom ▸ le_mul_of_one_le_left hwd.le hc
    exact List.forall_mem_singleton.mpr ⟨hpd, hp, hle, hwd, hw0, hw1, hsmall.trans hD'⟩

/-- All adjustments of a dyadic reduction are roundings of probabilities. -/
theorem isRounding_reduceDyadic {r : DyadicReduction} (h : f.reduceDyadic bits rounding log = .ok (g, r) log') :
    ∀ a ∈ r.adjustments, a.IsRounding := by
  obtain ⟨hbits, vs, -, hrun⟩ := reduceDyadic_eq_ok.mp h
  refine Logged.foldlM_induction (fun _ (s : Formula × DyadicReduction) _ => ∀ a ∈ s.2.adjustments, a.IsRounding)
    ?_ (fun a ha => absurd ha List.not_mem_nil) hrun
  rintro done v ⟨k, r⟩ s' log₂ log₃ _ hdone hnext
  obtain ⟨k', e, as, hround, rfl⟩ := roundNext_eq_ok.mp hnext
  exact List.forall_mem_append.mpr
    ⟨hdone, isRounding_of_roundWeights (two_le_denominator hbits) (denominator_le hbits) hround⟩

end Formula

section Runs
variable {options : Options} {source : Source} {sink : Sink} {seconds : List Char} {bits : Nat} {r : Reduced}
  {p p' : Run.Progress}

private theorem Run.reduce_dyadic_cases (hdyadic : options.dyadic = some bits)
    (h : Run.reduce options source {} = .ok r p) :
    ∃ (f g : Formula) (d : DyadicReduction) (log log' : Log),
      f.reduceDyadic bits options.rounding log = .ok (g, d) log' ∧ r = ⟨f, g, d.denominator, some d⟩ ∧
        p.written = [] := by
  obtain ⟨f, p₁, hparsed, h⟩ := run_bind_eq_ok.mp h
  obtain ⟨log, -, rfl⟩ := Run.logged_eq_ok.mp hparsed
  by_cases hzero : f.variableCount = 0
  · rw [if_pos hzero] at h
    cases h
  rw [if_neg hzero, hdyadic] at h
  obtain ⟨⟨g, d⟩, p₂, hreduced, h⟩ := run_bind_eq_ok.mp h
  obtain ⟨log', hreduce, rfl⟩ := Run.logged_eq_ok.mp hreduced
  cases h
  exact ⟨f, g, d, log, log', hreduce, rfl, rfl⟩

/-- A run with a dyadic reduction that is not verified succeeds if the sink does. -/
theorem process_of_dyadic (options : Options) (sink : Sink) {f g : Formula} {d : DyadicReduction} {log log' : Log}
    (hdyadic : options.dyadic = some bits) (hverify : options.verify = false)
    (hrefuses : ∀ text, sink.refuses text = false) (hend : sink.failsAtEnd = false)
    (hparse : Formula.parse source options.format #[] = .ok f log) (hpos : 0 < f.variableCount)
    (hreduce : f.reduceDyadic bits options.rounding log = .ok (g, d) log') (seconds : List Char) :
    ∃ p, process options source sink seconds {} = .ok (Reduced.report ⟨f, g, d.denominator, some d⟩) p := by
  obtain ⟨p, hreduced⟩ : ∃ p, Run.reduce options source {} = .ok ⟨f, g, d.denominator, some d⟩ p := by
    unfold Run.reduce
    rw [run_bind_of_ok (Run.logged_of_ok (p := ({} : Run.Progress)) .fault hparse), if_neg hpos.ne', hdyadic]
    have hlogged : Run.logged (Stop.map .notReduced) (f.reduceDyadic bits options.rounding) { log := log } =
        .ok (g, d) { log := log' } := Run.logged_of_ok _ hreduce
    exact ⟨_, run_bind_of_ok hlogged⟩
  obtain ⟨p', hcomplete⟩ : ∃ p', Reduced.complete ⟨f, g, d.denominator, some d⟩ options sink seconds p =
      .ok (Reduced.report ⟨f, g, d.denominator, some d⟩) p' := by
    unfold Reduced.complete
    rw [run_bind_of_ok (Reduced.write_of_reliable _ seconds hrefuses hend p), hverify]
    exact ⟨_, rfl⟩
  exact ⟨p', (run_bind_of_ok hreduced).trans hcomplete⟩

private theorem written_of_write {f : SinkError → RunError} {text : List Char} {u : Unit}
    (h : Run.write sink f text p = .ok u p') : p'.written = p.written ++ text := by
  unfold Run.write Sink.write at h
  split at h
  · rename_i written hwrite
    cases h
    split at hwrite
    · cases hwrite
    · exact (Except.ok.inj hwrite).symm
  · cases h

private theorem written_of_verify {u : Unit} (h : r.verify p = .ok u p') : p'.written = p.written := by
  unfold Reduced.verify at h
  cases hdyadic : r.dyadic with
  | none =>
    rw [hdyadic] at h
    obtain ⟨_, p₁, hcheck, hreport⟩ := run_bind_eq_ok.mp h
    obtain ⟨_, -, rfl⟩ := Run.logged_eq_ok.mp hcheck
    obtain ⟨_, -, rfl⟩ := Run.logged_eq_ok.mp hreport
    rfl
  | some d =>
    rw [hdyadic] at h
    obtain ⟨_, p₁, hcount, hreport⟩ := run_bind_eq_ok.mp h
    obtain ⟨_, -, rfl⟩ := Run.logged_eq_ok.mp hcount
    obtain ⟨_, -, rfl⟩ := Run.logged_eq_ok.mp hreport
    rfl

/-- A run that gives a report has written the comments and the reduced formula. -/
private theorem Reduced.complete_eq_ok {report : Report} (h : r.complete options sink seconds p = .ok report p') :
    report = r.report ∧ p'.written = p.written ++ unlines (r.comments seconds) ++ r.formula.text := by
  obtain ⟨_, p₁, hwrite, h⟩ := run_bind_eq_ok.mp h
  obtain ⟨_, p₂, hcomments, hwrite⟩ := run_bind_eq_ok.mp hwrite
  obtain ⟨_, p₃, hformula, hflush⟩ := run_bind_eq_ok.mp hwrite
  have hwritten : p₁.written = p.written ++ unlines (r.comments seconds) ++ r.formula.text := by
    rw [← written_of_write hcomments, ← written_of_write hformula]
    cases hend : sink.flush with
    | ok _ =>
      rw [hend] at hflush
      cases hflush
      rfl
    | error e =>
      rw [hend] at hflush
      cases hflush
  split at h
  · obtain ⟨_, p₄, hverify, h⟩ := run_bind_eq_ok.mp h
    cases h
    exact ⟨rfl, (written_of_verify hverify).trans hwritten⟩
  · cases h
    exact ⟨rfl, hwritten⟩

end Runs

def Report.exactBounds (report : Report) : ℚ × ℚ :=
  DyadicReduction.bounds ⟨report.denominator, report.adjustments⟩

/-- What a run with a dyadic reduction reports and writes about its bounds. -/
structure ReportsBounds (report : Report) (written : List Char) : Prop where
  reported : report.bounds = some (ofRat report.exactBounds.1, ofRat report.exactBounds.2)
  written : ∃ rest, written = unlines ["c denom ".toList ++ Text.Decimal.digits report.denominator,
    "c weight adjustment ".toList ++
      unwords [text plain (ofRat report.exactBounds.1), text plain (ofRat report.exactBounds.2)]] ++ rest
  usable : (report.adjustments.map Adjustment.size).prod < overflow →
    ∀ q, q = report.exactBounds.1 ∨ q = report.exactBounds.2 → IsModerate q → IsUsable q
  few : report.adjustments.length ≤ 8 → IsUsable report.exactBounds.1 ∧ IsUsable report.exactBounds.2

private theorem Fits.isUsable {size : ℕ} {q : ℚ} (h : Fits size q) (hsize : size ≤ 2 ^ 1000) : IsUsable q := by
  have hfinite : 2 ^ 1000 < overflow := by decide +kernel
  rcases eq_or_ne q 0 with rfl | hq
  · exact isUsable_zero
  · exact (isUsable_iff (h.isModerate hsize hq)).mpr
      ⟨(h.num.trans hsize).trans_lt hfinite, (h.den.trans hsize).trans_lt hfinite⟩

private theorem reportsBounds {options : Options} {source : Source} {sink : Sink} {seconds : List Char} {bits : Nat}
    {report : Report} {p : Run.Progress} (hdyadic : options.dyadic = some bits)
    (h : process options source sink seconds {} = .ok report p) : ReportsBounds report p.written := by
  obtain ⟨r, p₁, hreduced, h⟩ := run_bind_eq_ok.mp h
  obtain ⟨f, g, d, log, log', hreduce, rfl, hnothing⟩ := Run.reduce_dyadic_cases hdyadic hreduced
  obtain ⟨rfl, hwritten⟩ := Reduced.complete_eq_ok h
  have hrounding := Formula.isRounding_reduceDyadic hreduce
  obtain ⟨hlower, hupper⟩ := Adjustment.fits_bounds hrounding
  have hfits : ∀ q, q = d.bounds.1 ∨ q = d.bounds.2 → Fits (d.adjustments.map Adjustment.size).prod q := by
    rintro q (rfl | rfl)
    exacts [hlower, hupper]
  rw [hnothing, List.nil_append] at hwritten
  constructor
  · rfl
  · refine ⟨unlines ["c deweight time ".toList ++ seconds] ++ g.text, ?_⟩
    have hcomments : Reduced.comments ⟨f, g, d.denominator, some d⟩ seconds =
      ["c denom ".toList ++ Text.Decimal.digits d.denominator, "c weight adjustment ".toList ++
        unwords [text plain (ofRat d.bounds.1), text plain (ofRat d.bounds.2)]] ++
      ["c deweight time ".toList ++ seconds] := rfl
    rw [hwritten, hcomments, unlines, List.flatMap_append, List.append_assoc]
    rfl
  · exact fun hsize q hq hmoderate => (isUsable_iff hmoderate).mpr
      ⟨(hfits q hq).num.trans_lt hsize, (hfits q hq).den.trans_lt hsize⟩
  · intro hfew
    have hsize := Adjustment.prod_size_le hrounding hfew
    exact ⟨hlower.isUsable hsize, hupper.isUsable hsize⟩

/-- A run with a dyadic reduction reports and writes the doubles of its exact bounds. They are usable if the denominators
of the adjusted weights do not multiply up to too much, as those of eight adjustments never do. Any moderate fraction
becomes a finite double just if its numerator does, and a usable one just if both components become finite. -/
theorem process_reports_bounds {options : Options} {source : Source} {sink : Sink} {seconds : List Char} {bits : Nat}
    {report : Report} {p : Run.Progress} (hdyadic : options.dyadic = some bits)
    (h : process options source sink seconds {} = .ok report p) :
    ReportsBounds report p.written ∧
    ∀ q, IsModerate q → Converts q (ofRat q) ∧ ((ofRat q).isFinite = true ↔ q.num.natAbs < overflow) ∧
      (IsUsable q ↔ q.num.natAbs < overflow ∧ q.den < overflow) :=
  ⟨reportsBounds hdyadic h, fun _ hq => ⟨converts_ofRat hq, isFinite_ofRat_iff hq, isUsable_iff hq⟩⟩

theorem process_reports_bounds_third : ∃ report p,
    process { dyadic := some 2 } thirdSource .reliable "0.5".toList {} = .ok report p ∧ report.adjustments.length = 1 ∧
      IsUsable report.exactBounds.1 ∧ IsUsable report.exactBounds.2 := by
  obtain ⟨f, log, hparse, hcount, hreduced⟩ := Formula.parse_of_reads (rfl : thirdSource.ending = .endOfInput) .detect
    (fun f log => f.variableCount = 1 ∧
      gives (fun s _ => s.2.adjustments.length = 1) (f.reduceDyadic 2 .down log) = true) (by decide +kernel)
  obtain ⟨⟨g, d⟩, log', hreduce, hlength⟩ := exists_of_gives hreduced
  obtain ⟨p, hrun⟩ := process_of_dyadic { dyadic := some 2 } .reliable rfl rfl (fun _ => rfl) rfl hparse
    (hcount ▸ Nat.one_pos) hreduce "0.5".toList
  obtain ⟨hreports, -⟩ := process_reports_bounds rfl hrun
  exact ⟨_, p, hrun, hlength, hreports.few (hlength ▸ by decide : d.adjustments.length ≤ 8)⟩

/-- A text with 17 weights that are almost one half. -/
def halvesSource : Source :=
  { content := Text.Utf8.encode ("p cnf 17 0\n".toList ++ (List.range 17).flatMap fun i => "w ".toList ++
      Text.Decimal.digits (i + 1) ++ " 4611686018427387903/9223372036854775807\n".toList) }

private theorem isModerate_of_between {q : ℚ} (hlow : 1 / 2 ≤ q) (hhigh : q ≤ 2) : IsModerate q := by
  have hhalf : (2 : ℚ) ^ (-1000 : ℤ) ≤ 2 ^ (-1 : ℤ) := zpow_le_zpow_right₀ one_le_two (by norm_num)
  have htwo : (2 : ℚ) ^ (1 : ℤ) ≤ 2 ^ (1000 : ℤ) := zpow_le_zpow_right₀ one_le_two (by norm_num)
  have habs : |q| = q := abs_of_nonneg (by linarith)
  rw [zpow_neg_one, ← one_div] at hhalf
  rw [zpow_one] at htwo
  constructor
  · rw [habs]
    exact hhalf.trans hlow
  · rw [habs]
    exact hhigh.trans htwo

/-- Each weight is off by one part in two to the 62 only, but no bound is a number. -/
theorem process_bounds_undefined : ∃ report p lower upper,
    process { dyadic := some 1 } halvesSource .reliable "0.5".toList {} = .ok report p ∧
      IsModerate report.exactBounds.1 ∧ IsModerate report.exactBounds.2 ∧ report.bounds = some (lower, upper) ∧
      lower.isNaN = true ∧ upper.isNaN = true ∧
      ∃ rest, p.written = "c denom 131072\nc weight adjustment NaN NaN\n".toList ++ rest := by
  obtain ⟨f, log, hparse, hcount, hreduced⟩ := Formula.parse_of_reads (rfl : halvesSource.ending = .endOfInput) .detect
    (fun f log => f.variableCount = 17 ∧ gives (fun s _ => s.2.denominator = 131072 ∧
      (∀ q ∈ [s.2.bounds.1, s.2.bounds.2], 1 / 2 ≤ q ∧ q ≤ 2 ∧ (ofRat q).isNaN = true ∧
        text plain (ofRat q) = "NaN".toList)) (f.reduceDyadic 1 .down log) = true) (by decide +kernel)
  obtain ⟨⟨g, d⟩, log', hreduce, hdenominator, hbounds⟩ := exists_of_gives hreduced
  obtain ⟨p, hrun⟩ := process_of_dyadic { dyadic := some 1 } .reliable rfl rfl (fun _ => rfl) rfl
    hparse (hcount ▸ Nat.succ_pos 16) hreduce "0.5".toList
  rw [List.forall_mem_cons, List.forall_mem_singleton] at hbounds
  obtain ⟨⟨hlow, hhigh, hnan, htext⟩, hlow', hhigh', hnan', htext'⟩ := hbounds
  obtain ⟨rest, hwritten⟩ := (reportsBounds rfl hrun).written
  refine ⟨_, p, _, _, hrun, ?_, ?_, rfl, hnan, hnan', rest, ?_⟩
  · exact isModerate_of_between hlow hhigh
  · exact isModerate_of_between hlow' hhigh'
  · refine hwritten.trans ?_
    change unlines ["c denom ".toList ++ Text.Decimal.digits d.denominator, "c weight adjustment ".toList ++
      unwords [text plain (ofRat d.bounds.1), text plain (ofRat d.bounds.2)]] ++ rest = _
    rw [hdenominator, htext, htext']
    rfl

end WeightedCnf

import WeightedCnf.Proofs.ModelCounts
import WeightedCnf.Proofs.ReductionLines

/-! The verification of a run is sound and complete: a run that is verified and gives a report has written a formula with
the right number of models, and no run on a small formula with proper weights is refused. -/
namespace WeightedCnf
open Dimacs.Scanner (IsInline)

section Steps
variable {options : Options} {source : Source} {f g : Formula} {log log' : Log} {p p' : Run.Progress}

theorem Run.logged_eq_ok {ε α : Type} {e : ε → Stop RunError} {x : Logged ε α} {a : α} :
    Run.logged e x p = .ok a p' ↔ ∃ log', x p.log = .ok a log' ∧ p' = { p with log := log' } := by
  unfold Run.logged
  cases x p.log with
  | ok b log' =>
    constructor
    · intro h
      cases h
      exact ⟨log', rfl, rfl⟩
    · rintro ⟨_, h, rfl⟩
      cases h
      rfl
  | error cause log' => exact ⟨(nomatch ·), fun ⟨_, h, _⟩ => nomatch h⟩

/-- A reduction is confirmed exactly when both counts are given and agree. -/
theorem checkReduction_eq_ok {u : Unit} {denominator : Nat} : checkReduction f g denominator log = .ok u log' ↔
    ∃ weighted count, f.weightedCount = .ok weighted ∧ g.count = .ok count ∧ weighted * denominator = count ∧
      log' = log.push (.countsCompared weighted count denominator) := by
  unfold checkReduction
  constructor
  · intro h
    obtain ⟨weighted, log₁, hfirst, h⟩ := Logged.bind_eq_ok.mp h
    obtain ⟨hweighted, rfl⟩ := Logged.lift_eq_ok.mp hfirst
    obtain ⟨count, log₂, hsecond, h⟩ := Logged.bind_eq_ok.mp h
    obtain ⟨hcount, rfl⟩ := Logged.lift_eq_ok.mp hsecond
    obtain ⟨_, log₃, hreport, h⟩ := Logged.bind_eq_ok.mp h
    cases hreport
    refine ⟨weighted, count, mapError_eq_ok.mp hweighted, mapError_eq_ok.mp hcount, ?_⟩
    split at h
    · cases h
    · rename_i hequal
      cases h
      exact ⟨not_ne_iff.mp hequal, rfl⟩
  · rintro ⟨weighted, count, hweighted, hcount, hequal, rfl⟩
    refine Logged.bind_eq_ok.mpr ⟨weighted, log, Logged.lift_eq_ok.mpr ⟨mapError_eq_ok.mpr hweighted, rfl⟩, ?_⟩
    refine Logged.bind_eq_ok.mpr ⟨count, log, Logged.lift_eq_ok.mpr ⟨mapError_eq_ok.mpr hcount, rfl⟩, ?_⟩
    refine Logged.bind_eq_ok.mpr ⟨(), _, rfl, ?_⟩
    rw [if_neg (not_not_intro hequal)]
    rfl

/-- After an exact reduction, verification succeeds exactly when the counts agree, and it writes nothing. -/
theorem Reduced.verify_eq_ok {r : Reduced} (hdyadic : r.dyadic = none) {u : Unit} : r.verify p = .ok u p' ↔
    ∃ weighted count, r.original.weightedCount = .ok weighted ∧ r.formula.count = .ok count ∧
      weighted * r.denominator = count ∧ p' = { p with
        log := (p.log.push (.countsCompared weighted count r.denominator)).push .reductionVerified } := by
  unfold Reduced.verify
  rw [hdyadic, run_bind_eq_ok]
  constructor
  · rintro ⟨_, p₁, hcheck, hreport⟩
    obtain ⟨log₁, hchecked, rfl⟩ := Run.logged_eq_ok.mp hcheck
    obtain ⟨weighted, count, hweighted, hcount, hequal, rfl⟩ := checkReduction_eq_ok.mp hchecked
    cases hreport
    exact ⟨weighted, count, hweighted, hcount, hequal, rfl⟩
  · rintro ⟨weighted, count, hweighted, hcount, hequal, rfl⟩
    have hchecked : checkReduction r.original r.formula r.denominator p.log = .ok () _ :=
      checkReduction_eq_ok.mpr ⟨weighted, count, hweighted, hcount, hequal, rfl⟩
    exact ⟨(), _, Run.logged_eq_ok.mpr ⟨_, hchecked, rfl⟩, rfl⟩

private theorem Run.reduce_cases (hdyadic : options.dyadic = none)
    (hparse : Formula.parse source options.format #[] = .ok f log) {r : Reduced}
    (h : Run.reduce options source {} = .ok r p) : 0 < f.variableCount ∧ ∃ g d log', f.reduce log = .ok (g, d) log' ∧
      r = ⟨f, g, d, none⟩ ∧ p.written = [] := by
  unfold Run.reduce at h
  rw [run_bind_of_ok (Run.logged_of_ok (p := ({} : Run.Progress)) .fault hparse)] at h
  by_cases hzero : f.variableCount = 0
  · rw [if_pos hzero] at h
    cases h
  rw [if_neg hzero, hdyadic] at h
  obtain ⟨⟨g, d⟩, p₁, hreduced, h⟩ := run_bind_eq_ok.mp h
  obtain ⟨log', hreduce, rfl⟩ := Run.logged_eq_ok.mp hreduced
  cases h
  exact ⟨Nat.pos_of_ne_zero hzero, g, d, log', hreduce, rfl, rfl⟩

/-- A formula with variables was not refused, so it accords with the headers. -/
private theorem Formula.accords_of_parse_pos {format : WeightFormat}
    (hparse : Formula.parse source format #[] = .ok f log)
    (hpos : 0 < f.variableCount) : f.Accords log := by
  rcases readFrom_cases (BufferedStream.ofSourceUsual source) format with
    ⟨f', log', hread, haccords, -⟩ | ⟨f', log', e, hread, hzero, -⟩ | ⟨cause, log', hread, -⟩
  · cases hread.symm.trans hparse
    exact haccords
  · cases hread.symm.trans hparse
    exact absurd hzero hpos.ne'
  · cases hread.symm.trans hparse

end Steps

variable {options : Options} {source : Source} {sink : Sink} {seconds : List Char} {f : Formula} {log : Log}

/-- Verification is sound: if a verified run gives a report, then the weights of the formula that was read, times the
denominator, add up to the number of the projected models of the formula that was written, also as it is read again. It
is complete: a run is not refused when the formula that was read can be read as clauses, has proper weights and becomes
a small formula. -/
theorem process_verifies (hdyadic : options.dyadic = none) (hverify : options.verify = true)
    (hrefuses : ∀ text, sink.refuses text = false) (hend : sink.failsAtEnd = false) (hseconds : IsInline seconds)
    (hparse : Formula.parse source options.format #[] = .ok f log) (hr : f.SupportInRange) :
    (∀ report p, process options source sink seconds {} = .ok report p →
      ∃ r : Reduced, ∃ cnf cnf', report = r.report ∧ p.written = unlines (r.comments seconds) ++ r.formula.text ∧
        f.toCnf = .ok cnf ∧ f.IsWeighed ∧ r.formula.toCnf = .ok cnf' ∧
        f.weightedSum cnf * report.denominator = (cnf'.models r.formula.free).card ∧
        (source.ending = .endOfInput → report.clauses < 2 ^ 63 → ∀ again : Source,
          again.content = Text.Utf8.encode p.written → again.ending = .endOfInput → ∀ log₁, ∃ k log₂,
            Formula.parse again .mc20 log₁ = .ok k log₂ ∧ k.toCnf = .ok cnf' ∧ k.free = r.formula.free)) ∧
    (0 < f.variableCount → (∃ cnf, f.toCnf = .ok cnf) → (∀ v ∈ f.free, ¬ f.IsSkipped v) →
      f.variableCount + ∑ v ∈ f.free, f.auxiliaryCount v ≤ Variable.limit →
      (∀ log g d log', f.reduce log = .ok (g, d) log' → g.variableCount ≤ Count.maxVariables) →
      ∃ report p, process options source sink seconds {} = .ok report p) := by
  constructor
  · intro report p h
    obtain ⟨r, p₁, hreduced, h⟩ := run_bind_eq_ok.mp h
    obtain ⟨hpos, g, d, log', hreduce, rfl, hwritten⟩ := Run.reduce_cases hdyadic hparse hreduced
    obtain ⟨_, p₂, hwrite, h⟩ := run_bind_eq_ok.mp h
    cases (Reduced.write_of_reliable ⟨f, g, d, none⟩ seconds hrefuses hend p₁).symm.trans hwrite
    rw [if_pos hverify] at h
    obtain ⟨_, p₃, hverified, h⟩ := run_bind_eq_ok.mp h
    obtain ⟨weighted, count, hweighted, hcount, hequal, rfl⟩ := (Reduced.verify_eq_ok rfl).mp hverified
    cases h
    have haccrues := Formula.accrues_reduce hreduce
    have hgr := haccrues.supportInRange hr
    obtain ⟨-, hweighed, cnf, hcnf, rfl⟩ := (Formula.weightedCount_eq_ok hr).mp hweighted
    obtain ⟨hsmall, cnf', hcnf', rfl⟩ := (Formula.count_eq_ok hgr).mp hcount
    refine ⟨⟨f, g, d, none⟩, cnf, cnf', rfl, by dsimp only; rw [hwritten]; rfl, hcnf, hweighed, hcnf', hequal,
      fun hending hclauses again hcontent hagain log₁ => ?_⟩
    have hvariables : g.variableCount < 2 ^ 63 := Nat.lt_of_le_of_lt hsmall (by decide)
    have hbody := haccrues.isPlainLine (isPlainLine_of_parse hending hparse hpos)
    obtain ⟨k, log₂, hk, -, -, -, hfree, hsame⟩ := Reduced.reads_back (r := ⟨f, g, d, none⟩) rfl hseconds
      (List.forall_mem_map.mpr hbody) hgr hvariables hclauses (by rw [hcontent, hwritten]; rfl) hagain log₁
    exact ⟨k, log₂, hk, hsame cnf' hcnf', hfree⟩
  · rintro hpos ⟨cnf, hcnf⟩ hskip hlimit hsmall
    have hclauses := (Formula.accords_of_parse_pos hparse hpos).clauseCount_lt
    obtain ⟨⟨g, d⟩, log', hreduce, hextends⟩ := Formula.exists_reduce hlimit hclauses log
    have hfew := hsmall log g d log' hreduce
    have hvariables : g.variableCount = _ := hextends.variableCount
    obtain ⟨cnf', hcnf', hcard⟩ := Formula.card_models_of_reduce hcnf hr hskip hreduce
    have hweighted := (Formula.weightedCount_eq_ok hr).mpr ⟨by omega, fun v hv =>
      Formula.isValid_of_not_skipped (hskip v hv), cnf, hcnf, rfl⟩
    have hcount := (Formula.count_eq_ok ((Formula.accrues_reduce hreduce).supportInRange hr)).mpr ⟨hfew, cnf', hcnf', rfl⟩
    have hequal : f.weightedSum cnf * d = (cnf'.models g.free).card := by
      rw [hcard]
      exact mul_comm _ _
    obtain ⟨p₁, hreduced⟩ : ∃ p₁, Run.reduce options source {} = .ok ⟨f, g, d, none⟩ p₁ :=
      ⟨_, Run.reduce_of_ok hdyadic hparse hpos hreduce⟩
    obtain ⟨p₂, hwrite⟩ : ∃ p₂, Reduced.write ⟨f, g, d, none⟩ sink seconds p₁ = .ok () p₂ :=
      ⟨_, Reduced.write_of_reliable _ seconds hrefuses hend p₁⟩
    obtain ⟨p₃, hverified⟩ : ∃ p₃, Reduced.verify ⟨f, g, d, none⟩ p₂ = .ok () p₃ :=
      ⟨_, (Reduced.verify_eq_ok rfl).mpr ⟨_, _, hweighted, hcount, hequal, rfl⟩⟩
    refine ⟨Reduced.report ⟨f, g, d, none⟩, p₃, (run_bind_of_ok hreduced).trans ((run_bind_of_ok hwrite).trans ?_)⟩
    rw [if_pos hverify]
    exact run_bind_of_ok hverified

def thirdSource : Source :=
  { content := Text.Utf8.encode "p cnf 1 0\nw 1 1/3\n".toList }

theorem process_verifies_third : ∃ f log, Formula.parse thirdSource .detect #[] = .ok f log ∧ f.SupportInRange ∧
    ∃ report p cnf cnf', ∃ r : Reduced, process { verify := true } thirdSource .reliable "0.5".toList {} = .ok report p ∧
      report = r.report ∧ f.toCnf = .ok cnf ∧ r.formula.toCnf = .ok cnf' ∧
      f.weightedSum cnf * report.denominator = (cnf'.models r.formula.free).card ∧
      (report.clauses < 2 ^ 63 → ∃ k log₂, Formula.parse { content := Text.Utf8.encode p.written } .mc20 #[] = .ok k log₂ ∧
        k.toCnf = .ok cnf' ∧ k.free = r.formula.free) := by
  obtain ⟨f, log, hparse, hcount, hsupport, hclauses, hcnf, hskip, haux⟩ := Formula.parse_of_reads
    (rfl : thirdSource.ending = .endOfInput) .detect
    (fun f _ => f.variableCount = 1 ∧ f.support.toList = [] ∧ f.clauseCount = 0 ∧ f.toCnf = .ok ⟨1, []⟩ ∧
      ¬ f.IsSkipped .one ∧ f.auxiliaryCount .one = 2) (by decide +kernel)
  have hfree : f.free = {.one} := by
    ext v
    rw [Formula.mem_free, if_pos (Support.isEmpty_iff.mpr hsupport), hcount, Finset.mem_singleton]
    refine ⟨fun hv => Variable.number_injective ?_, fun hv => hv ▸ Nat.le_refl 1⟩
    exact Nat.le_antisymm hv (Nat.succ_pos v.index)
  have hsize : f.variableCount + ∑ v ∈ f.free, f.auxiliaryCount v = 3 := by
    rw [hcount, hfree, Finset.sum_singleton, haux]
  have hr : f.SupportInRange := fun v hv => nomatch hsupport ▸ hv
  have hskip' : ∀ v ∈ f.free, ¬ f.IsSkipped v := by
    intro v hv
    rw [hfree, Finset.mem_singleton] at hv
    rwa [hv]
  have hlimit : f.variableCount + ∑ v ∈ f.free, f.auxiliaryCount v ≤ Variable.limit := hsize ▸ by decide
  have hsmall : ∀ log g d log', f.reduce log = .ok (g, d) log' → g.variableCount ≤ Count.maxVariables := by
    intro log g d log' hreduce
    obtain ⟨r, _, hsame, hextends⟩ := Formula.exists_reduce hlimit (hclauses ▸ by decide) log
    cases hsame.symm.trans hreduce
    rw [hextends.variableCount, hsize]
    decide
  obtain ⟨hsound, hcomplete⟩ := process_verifies (rfl : ({ verify := true } : Options).dyadic = none) rfl
    (fun _ => (rfl : Sink.reliable.refuses _ = false)) rfl (by simp : IsInline "0.5".toList) hparse hr
  obtain ⟨report, p, hrun⟩ := hcomplete (hcount ▸ Nat.one_pos) ⟨_, hcnf⟩ hskip' hlimit hsmall
  obtain ⟨r, cnf, cnf', hreport, -, hcnf, -, hcnf', hequal, hagain⟩ := hsound report p hrun
  exact ⟨f, log, hparse, hr, report, p, cnf, cnf', r, hrun, hreport, hcnf, hcnf', hequal, fun hclauses =>
    hagain rfl hclauses { content := Text.Utf8.encode p.written } rfl rfl #[]⟩

end WeightedCnf

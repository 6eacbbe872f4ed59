import WeightedCnf.Proofs.BufferedReading
import WeightedCnf.Proofs.ClauseBound
import WeightedCnf.Proofs.ReductionSize
import WeightedCnf.Proofs.Rereading
import WeightedCnf.Run.Process

/-! From text to text: what a run with the exact reduction writes is read again as an unweighted formula, and has
as many projected models as the weights of the formula that was read add up to, times the denominator. -/
namespace WeightedCnf
open Dimacs (BodyReads)
open Dimacs.Scanner (IsInline)

namespace Formula
variable {f : Formula} {front : List (List Char)} {cnf : Cnf}

private theorem free_readBack (front : List (List Char)) : (f.readBack front).free = f.free := by
  ext v
  have hempty : (f.readBack front).support.isEmpty = f.support.isEmpty := by
    rw [Bool.eq_iff_iff, Support.isEmpty_iff, Support.isEmpty_iff, toList_support_readBack]
  rw [mem_free, mem_free, hempty, toList_support_readBack]
  rfl

/-- Comments in front of a formula do not change what its clauses mean. -/
theorem toCnf_readBack (hfront : ∀ text ∈ front, ∃ rest, text = 'c' :: rest ∧ IsInline rest) :
    (f.readBack front).toCnf = .ok cnf ↔ f.toCnf = .ok cnf := by
  have hlines : (f.readBack front).body.toList.map Line.text = front ++ f.body.toList.map Line.text := by
    simp [readBack, Function.comp_def, Line.text]
  rw [toCnf_eq_ok_iff, toCnf_eq_ok_iff, hlines, BodyReads.comments_append hfront]
  rfl

end Formula

private theorem Text.Decimal.ofInt_ne_nil (n : Int) : ofInt n ≠ [] := by
  cases n with
  | ofNat n => exact digits_ne_nil
  | negSucc n => exact List.cons_ne_nil _ _

/-- The text of an added clause is no other item. -/
theorem isPlainLine_clause {clause : Clause} (hclause : clause ≠ []) : IsPlainLine (Line.clause clause).text := by
  obtain ⟨l, ls, rfl⟩ := List.exists_cons_of_ne_nil hclause
  obtain ⟨c, cs, hl⟩ := List.exists_cons_of_ne_nil (Text.Decimal.ofInt_ne_nil l.toInt)
  have hinline : IsInline (Line.clause (l :: ls)).text := by
    simp [Line.text, zeroTerminated, Literal.text]
  have hfirst : ∃ rest, (Line.clause (l :: ls)).text = c :: rest := by
    have hunwords : ∃ rest, unwords (Literal.text l :: ls.map Literal.text) = Literal.text l ++ rest := by
      cases ls with
      | nil => exact ⟨[], by rw [List.append_nil]; exact unwords_singleton _⟩
      | cons k ks => exact ⟨_, unwords_cons_cons _ _ _⟩
    obtain ⟨rest, hrest⟩ := hunwords
    refine ⟨(cs ++ rest) ++ " 0".toList, ?_⟩
    have htext : (Line.clause (l :: ls)).text = (Literal.text l ++ rest) ++ " 0".toList := congrArg (· ++ _) hrest
    rw [htext, Literal.text, hl]
    rfl
  obtain ⟨rest, hrest⟩ := hfirst
  have hc : Text.Decimal.isDigit c = true ∨ c = '-' :=
    Text.Decimal.mem_ofInt (n := l.toInt) (hl ▸ List.mem_cons_self)
  have hne (d : Char) (hd : Text.Decimal.isDigit d = false) (hd' : d ≠ '-') : c ≠ d := by
    rintro rfl
    rcases hc with hc | hc
    · rw [hd] at hc
      cases hc
    · exact hd' hc
  have hblank : Text.isAsciiBlank c = false := by
    simp only [Text.isAsciiBlank, Bool.or_eq_false_iff, beq_eq_false_iff_ne]
    exact ⟨⟨⟨⟨hne _ rfl (by decide), hne _ rfl (by decide)⟩, hne _ rfl (by decide)⟩, hne _ rfl (by decide)⟩,
      hne _ rfl (by decide)⟩
  exact ⟨hinline.1, c, rest, hrest, hblank, hne 'p' rfl (by decide), hne 'w' rfl (by decide), fun he =>
    absurd he (hne 'c' rfl (by decide))⟩

/-- A comment whose first word is not that of the support has no meaning. -/
theorem isPlainLine_comment (word : List Char) {rest : List Char} (hword : Text.IsWord word) (hne : word ≠ "ind".toList)
    (hinline : IsInline (' ' :: (word ++ ' ' :: rest))) : IsPlainLine ('c' :: ' ' :: (word ++ ' ' :: rest)) := by
  refine ⟨List.not_mem_cons_of_ne_of_not_mem (by decide) hinline.1, 'c', _, rfl, by decide, by decide, by decide,
    fun _ hsupport => ?_⟩
  have hwords : Text.words (' ' :: (word ++ ' ' :: rest)) = word :: Text.words rest :=
    (Text.words_blank (by decide) _).trans (Text.words_word_blank hword (by decide) _)
  have hhead := hsupport.2
  rw [hwords] at hhead
  exact hne (Option.some.inj hhead)

private theorem Reduced.isPlainLine_comments {r : Reduced} (hdyadic : r.dyadic = none) {seconds : List Char}
    (hseconds : IsInline seconds) : ∀ text ∈ r.comments seconds,
      IsPlainLine text ∧ ∃ rest, text = 'c' :: rest ∧ IsInline rest := by
  intro text htext
  have hcomments : r.comments seconds =
      ["c denom ".toList ++ Text.Decimal.digits r.denominator, "c deweight time ".toList ++ seconds] := by
    rw [comments, hdyadic]
    rfl
  have hdenom : IsInline (" denom ".toList ++ Text.Decimal.digits r.denominator) := by simp
  have htime : IsInline (" deweight time ".toList ++ seconds) := by simp [hseconds]
  have hdenomWord : Text.IsWord "denom".toList := Text.isWord_of_all (List.cons_ne_nil _ _) rfl
  have htimeWord : Text.IsWord "deweight".toList := Text.isWord_of_all (List.cons_ne_nil _ _) rfl
  rw [hcomments] at htext
  rcases List.mem_pair.mp htext with rfl | rfl
  · exact ⟨isPlainLine_comment "denom".toList hdenomWord (by decide) hdenom, _, rfl, hdenom⟩
  · exact ⟨isPlainLine_comment "deweight".toList htimeWord (by decide) htime, _, rfl, htime⟩

section Run
variable {options : Options} {source : Source} {sink : Sink} {seconds : List Char} {f g : Formula} {d : Nat}
  {log log' : Log}

theorem Run.logged_of_ok {ε α : Type} (e : ε → Stop RunError) {x : Logged ε α} {a : α} {p : Run.Progress}
    (h : x p.log = .ok a log') : Run.logged e x p = .ok a { p with log := log' } := by
  rw [Run.logged, h]

theorem Run.reduce_of_ok (hdyadic : options.dyadic = none)
    (hparse : Formula.parse source options.format #[] = .ok f log) (hpos : 0 < f.variableCount)
    (hreduce : f.reduce log = .ok (g, d) log') : Run.reduce options source {} =
      .ok ⟨f, g, d, none⟩ { log := log'.push (.reductionDone d g.variableCount g.clauseCount) } := by
  unfold Run.reduce
  rw [run_bind_of_ok (Run.logged_of_ok (p := ({} : Run.Progress)) .fault hparse), if_neg hpos.ne', hdyadic]
  have hlogged : Run.logged .fault f.reduce { log := log } = .ok (g, d) { log := log' } :=
    Run.logged_of_ok .fault hreduce
  exact run_bind_of_ok hlogged

theorem Reduced.write_of_reliable (r : Reduced) (seconds : List Char) (hrefuses : ∀ text, sink.refuses text = false)
    (hend : sink.failsAtEnd = false) (p : Run.Progress) : r.write sink seconds p =
      .ok () { p with written := p.written ++ unlines (r.comments seconds) ++ r.formula.text } := by
  have hwrite (e : SinkError → RunError) (text : List Char) (p : Run.Progress) :
      Run.write sink e text p = .ok () { p with written := p.written ++ text } := by
    rw [Run.write, Sink.write, hrefuses]
    rfl
  unfold Reduced.write
  rw [run_bind_of_ok (hwrite _ _ _), run_bind_of_ok (hwrite _ _ _), Sink.flush, hend]
  rfl

section Parsed
variable (hending : source.ending = .endOfInput) (hparse : Formula.parse source options.format #[] = .ok f log)
  (hpos : 0 < f.variableCount)
include hending hparse hpos

theorem isPlainLine_of_parse : ∀ line ∈ f.body.toList, IsPlainLine line.text := by
  rw [Formula.parse_eq_readFrom hending] at hparse
  obtain ⟨hkept, -⟩ := Formula.isKept_of_readFrom hparse (.inl hpos)
  exact fun line hline => (hkept line hline).isPlainLine

private theorem two_mul_clauseCount_le {cnf : Cnf} (hcnf : f.toCnf = .ok cnf) :
    2 * f.clauseCount ≤ source.content.length + 1 := by
  rw [Formula.parse_eq_readFrom hending] at hparse
  obtain ⟨hkept, hsize⟩ := Formula.isKept_of_readFrom hparse (.inl hpos)
  obtain ⟨-, hreads, -, hcount, -⟩ := Formula.toCnf_eq_ok_iff.mp hcnf
  rw [← hcount]
  exact (hreads.two_mul_length_le hkept).trans hsize

end Parsed

private theorem Formula.Extends.isPlainLine {m n : Nat} (h : f.Extends g m n)
    (hbody : ∀ line ∈ f.body.toList, IsPlainLine line.text) :
    ∀ text ∈ g.body.toList.map Line.text, IsPlainLine text := by
  obtain ⟨xs, cs, hgrows, -, -, hne⟩ := h
  intro text htext
  obtain ⟨line, hline, rfl⟩ := List.mem_map.mp htext
  rw [hgrows.body] at hline
  rcases List.mem_append.mp hline with hline | hline
  · exact hbody line hline
  · obtain ⟨c, hc, rfl⟩ := List.mem_map.mp hline
    exact isPlainLine_clause (hne c hc)

/-- A reduced formula that was written behind its comments is read as an unweighted one with the same clauses. -/
theorem Reduced.reads_back {r : Reduced} (hdyadic : r.dyadic = none) (hseconds : IsInline seconds)
    (hbody : ∀ text ∈ r.formula.body.toList.map Line.text, IsPlainLine text) (hr : r.formula.SupportInRange)
    (hvariables : r.formula.variableCount < 2 ^ 63) (hclauses : r.formula.clauseCount < 2 ^ 63) {again : Source}
    (hcontent : again.content = Text.Utf8.encode (unlines (r.comments seconds) ++ r.formula.text))
    (hagain : again.ending = .endOfInput) (log₁ : Log) : ∃ k log₂, Formula.parse again .mc20 log₁ = .ok k log₂ ∧
      k.variableCount = r.formula.variableCount ∧ k.clauseCount = r.formula.clauseCount ∧ (∀ l, k.weight l = .one) ∧
      k.free = r.formula.free ∧ ∀ cnf, r.formula.toCnf = .ok cnf → k.toCnf = .ok cnf := by
  have hcomments := Reduced.isPlainLine_comments hdyadic hseconds
  have htext : unlines (r.comments seconds) ++ r.formula.text = unlines (r.comments seconds ++ r.formula.lines) :=
    List.flatMap_append.symm
  have hread := Formula.readFrom_lines (fun text htext => (hcomments text htext).1) hbody hr hvariables hclauses log₁
  rw [← htext, ← hcontent, ← Formula.parse_eq_readFrom hagain] at hread
  exact ⟨r.formula.readBack (r.comments seconds), _, hread, rfl, rfl, Formula.weight_readBack,
    Formula.free_readBack (r.comments seconds), fun cnf hcnf => (Formula.toCnf_readBack fun text htext => (hcomments text htext).2).mpr hcnf⟩

/-- A run with the exact reduction writes a formula that is read back as an unweighted one. Its projected models
are as many as the weights of the formula that was read add up to, times the denominator. Whatever is asked of the
run after that, this much is done; without a verification it is all. A content that fits in memory has fewer than
`2 ^ 63` bytes, and with the new clauses its number of clauses is still one that a header can state. -/
theorem process_reads_back (hdyadic : options.dyadic = none) (hrefuses : ∀ text, sink.refuses text = false)
    (hend : sink.failsAtEnd = false) (hseconds : IsInline seconds) (hending : source.ending = .endOfInput)
    (hlength : source.content.length < 2 ^ 63) (hparse : Formula.parse source options.format #[] = .ok f log)
    (hpos : 0 < f.variableCount) (hr : f.SupportInRange) {cnf : Cnf} (hcnf : f.toCnf = .ok cnf)
    (hskip : ∀ v ∈ f.free, ¬ f.IsSkipped v)
    (hlimit : f.variableCount + ∑ v ∈ f.free, f.auxiliaryCount v ≤ Variable.limit) :
    ∃ r : Reduced, ∃ p : Run.Progress,
      process options source sink seconds {} =
        (if options.verify then r.verify >>= fun _ => pure r.report else pure r.report) p ∧
      r.report.variables = f.variableCount + ∑ v ∈ f.free, f.auxiliaryCount v ∧
      (∃ rest, p.written = "c denom ".toList ++ Text.Decimal.digits r.report.denominator ++ '\n' :: rest) ∧
      ∀ again : Source, again.content = Text.Utf8.encode p.written → again.ending = .endOfInput → ∀ log₁,
        ∃ g log₂ cnf', Formula.parse again .mc20 log₁ = .ok g log₂ ∧ g.variableCount = r.report.variables ∧
          g.clauseCount = r.report.clauses ∧ (∀ l, g.weight l = .one) ∧ g.toCnf = .ok cnf' ∧
          ((cnf'.models g.free).card : ℚ) = r.report.denominator * f.weightedSum cnf := by
  have hsmall : Variable.limit = 2 ^ 28 := rfl
  have hfew := f.card_free_le
  have hclauses := two_mul_clauseCount_le hending hparse hpos hcnf
  obtain ⟨⟨g, d⟩, log', hreduce, hextends⟩ := Formula.exists_reduce hlimit (by omega) log
  have hvariables : g.variableCount = f.variableCount + ∑ v ∈ f.free, f.auxiliaryCount v := hextends.variableCount
  have hclauses' : g.clauseCount ≤ _ := hextends.clauseCount_le
  have hwrite := Reduced.write_of_reliable ⟨f, g, d, none⟩ seconds hrefuses hend
    { log := log'.push (.reductionDone d g.variableCount g.clauseCount) }
  have hstart : unlines (Reduced.comments ⟨f, g, d, none⟩ seconds) ++ g.text = "c denom ".toList ++
      Text.Decimal.digits d ++ '\n' :: (unlines ["c deweight time ".toList ++ seconds] ++ g.text) := by
    simp [Reduced.comments, unlines]
  refine ⟨⟨f, g, d, none⟩,
    { written := unlines (Reduced.comments ⟨f, g, d, none⟩ seconds) ++ g.text
      log := log'.push (.reductionDone d g.variableCount g.clauseCount) }, ?_, hvariables, ⟨_, hstart⟩,
    fun again hcontent hagain log₁ => ?_⟩
  · unfold process
    rw [run_bind_of_ok (Run.reduce_of_ok hdyadic hparse hpos hreduce)]
    unfold Reduced.complete
    rw [run_bind_of_ok hwrite]
    split <;> rfl
  · obtain ⟨cnf', hg, hcard⟩ := Formula.card_models_of_reduce hcnf hr hskip hreduce
    obtain ⟨xs, cs, hgrows, -⟩ := id hextends
    have hvariables' : g.variableCount < 2 ^ 63 := by omega
    have hclauses'' : g.clauseCount < 2 ^ 63 := by omega
    obtain ⟨k, log₂, hk, hsameVariables, hsameClauses, hweights, hfree, hsame⟩ :=
      Reduced.reads_back (r := ⟨f, g, d, none⟩) rfl hseconds
        (hextends.isPlainLine (isPlainLine_of_parse hending hparse hpos)) (hgrows.supportInRange hr) hvariables' hclauses''
        hcontent hagain log₁
    exact ⟨k, log₂, cnf', hk, hsameVariables, hsameClauses, hweights, hsame cnf' hg, hfree.symm ▸ hcard⟩

def thirdsSource : Source :=
  { content := Text.Utf8.encode "p cnf 2 1\nc ind 1 0\nw 1 1/3\nw -1 4/6\n1 2 0\n".toList }

private theorem parse_thirds : ∃ f log, Formula.parse thirdsSource .mc20 #[] = .ok f log ∧ f.variableCount = 2 ∧
    f.support.toList = [⟨0, by decide⟩] ∧ f.toCnf.isOk = true ∧ ¬ f.IsSkipped ⟨0, by decide⟩ ∧
    f.auxiliaryCount ⟨0, by decide⟩ = 2 :=
  Formula.parse_of_reads (rfl : thirdsSource.ending = .endOfInput) .mc20
    (fun f _ => f.variableCount = 2 ∧ f.support.toList = [⟨0, by decide⟩] ∧ f.toCnf.isOk = true ∧
      ¬ f.IsSkipped ⟨0, by decide⟩ ∧ f.auxiliaryCount ⟨0, by decide⟩ = 2)
    (by decide +kernel)

theorem process_reads_back_thirds : ∃ f log cnf, Formula.parse thirdsSource .mc20 #[] = .ok f log ∧
    f.toCnf = .ok cnf ∧ ∃ report p, process { format := .mc20 } thirdsSource .reliable "0.5".toList {} =
      .ok report p ∧ report.variables = 4 ∧
      ∀ again : Source, again.content = Text.Utf8.encode p.written → again.ending = .endOfInput →
        ∃ g log₂ cnf', Formula.parse again .mc20 #[] = .ok g log₂ ∧ g.toCnf = .ok cnf' ∧
          ((cnf'.models g.free).card : ℚ) = report.denominator * f.weightedSum cnf := by
  obtain ⟨f, log, hparse, hcount, hsupport, hok, hskip, haux⟩ := parse_thirds
  obtain ⟨cnf, hcnf⟩ : ∃ cnf, f.toCnf = .ok cnf := by
    cases h : f.toCnf with
    | ok cnf => exact ⟨cnf, rfl⟩
    | error e => rw [h] at hok; cases hok
  have hfree : f.free = {⟨0, by decide⟩} := Formula.free_eq_singleton hsupport
  have hsum : f.variableCount + ∑ v ∈ f.free, f.auxiliaryCount v = 4 := by
    rw [hcount, hfree, Finset.sum_singleton, haux]
  have hlimit : 4 ≤ Variable.limit := by decide
  have hskip' : ∀ v ∈ f.free, ¬ f.IsSkipped v := by
    intro v hv
    rw [hfree, Finset.mem_singleton] at hv
    rwa [hv]
  have hr : f.SupportInRange := by
    intro v hv
    rw [hsupport, List.mem_singleton] at hv
    rw [hv, hcount]
    decide
  obtain ⟨r, p, hrun, hvariables, -, hagain⟩ := process_reads_back
    (rfl : ({ format := .mc20 } : Options).dyadic = none) (fun _ => (rfl : Sink.reliable.refuses _ = false)) rfl
    (by simp : IsInline "0.5".toList) rfl (by decide) hparse (by omega) hr hcnf hskip' (by omega)
  refine ⟨f, log, cnf, hparse, hcnf, r.report, p, hrun, hvariables.trans hsum, fun again hcontent hend => ?_⟩
  obtain ⟨g, log₂, cnf', hg, -, -, -, hcnf', hcard⟩ := hagain again hcontent hend #[]
  exact ⟨g, log₂, cnf', hg, hcnf', hcard⟩

end Run
end WeightedCnf

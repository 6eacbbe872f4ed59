import WeightedCnf.Proofs.DyadicReduction
import WeightedCnf.Proofs.ExactReduction
import WeightedCnf.Proofs.RoundTrip
import WeightedCnf.Proofs.Unweighted

/-! A reduction only adds to a formula: variables with the next numbers, clauses that are not empty, and comments on
rounded weights. So what becomes of a formula that was read is read again as it was written. -/
namespace WeightedCnf
open Dimacs.Scanner (IsInline)

def Line.IsReduction : Line → Prop
  | .raw _ => False
  | .clause literals => literals ≠ []
  | .comment text => ∃ rest, text = "adjust w ".toList ++ rest ∧ IsInline rest

private theorem Line.IsReduction.isPlainLine {line : Line} (h : line.IsReduction) : IsPlainLine line.text := by
  cases line with
  | raw text => exact h.elim
  | clause literals => exact isPlainLine_clause h
  | comment text =>
    obtain ⟨rest, rfl, hrest⟩ := h
    have hword : Text.IsWord "adjust".toList := Text.isWord_of_all (List.cons_ne_nil _ _) rfl
    have hinline : IsInline (" adjust w ".toList ++ rest) := by simp [hrest]
    exact isPlainLine_comment "adjust".toList hword (by decide) hinline

namespace Formula
variable {f g k : Formula} {v : Variable} {d : Nat} {log log' : Log}

/-- `g` is `f` with new variables and with lines that a reduction may add. -/
def Accrues (f g : Formula) : Prop :=
  ∃ xs added, Grows f g xs added ∧ ∀ line ∈ added, line.IsReduction

namespace Accrues

theorem refl (f : Formula) : f.Accrues f := ⟨[], [], .refl f, List.forall_mem_nil _⟩

theorem trans (h : f.Accrues g) (h' : g.Accrues k) : f.Accrues k := by
  obtain ⟨xs, added, hgrows, hlines⟩ := h
  obtain ⟨ys, more, hgrows', hlines'⟩ := h'
  exact ⟨xs ++ ys, added ++ more, hgrows.trans hgrows', List.forall_mem_append.mpr ⟨hlines, hlines'⟩⟩

theorem supportInRange (h : f.Accrues g) (hr : f.SupportInRange) : g.SupportInRange := by
  obtain ⟨xs, added, hgrows, -⟩ := h
  exact hgrows.supportInRange hr

theorem isPlainLine (h : f.Accrues g) (hbody : ∀ line ∈ f.body.toList, IsPlainLine line.text) :
    ∀ line ∈ g.body.toList, IsPlainLine line.text := by
  obtain ⟨xs, added, hgrows, hlines⟩ := h
  rw [hgrows.body]
  exact List.forall_mem_append.mpr ⟨hbody, fun line hline => (hlines line hline).isPlainLine⟩

private theorem variableCount_le_max (h : f.Accrues g) : g.variableCount ≤ max f.variableCount Variable.limit := by
  obtain ⟨xs, added, hgrows, -⟩ := h
  exact hgrows.variableCount_le_max

end Accrues

section Additions
variable {guard : Literal} {ls : List Literal} {count : Nat} {xs : List Variable}

private theorem accrues_addAuxiliaries (h : f.addAuxiliaries count = .ok (xs, g)) : f.Accrues g :=
  ⟨xs, [], (grows_addAuxiliaries h).2, List.forall_mem_nil _⟩

private theorem accrues_addClause {clause : Clause} (hclause : clause ≠ []) (h : f.addClause clause = .ok g) :
    f.Accrues g :=
  ⟨[], _, grows_addClause h, fun _ hline => List.mem_singleton.mp hline ▸ hclause⟩

private theorem accrues_addGuardedChain (h : f.addGuardedChain guard ls count = .ok g) : f.Accrues g := by
  obtain ⟨chain, -, hgrows⟩ := grows_addGuardedChain h
  refine ⟨[], _, hgrows, fun line hline => ?_⟩
  obtain ⟨clause, hclause, rfl⟩ := List.mem_map.mp hline
  obtain ⟨c, -, rfl⟩ := List.mem_map.mp hclause
  exact List.cons_ne_nil guard c

private theorem accrues_addShare (h : f.addShare guard ls count = .ok g) : f.Accrues g := by
  unfold addShare at h
  split at h
  · exact accrues_addClause (List.cons_ne_nil _ _) h
  · exact accrues_addGuardedChain h

end Additions

/-- The exact reduction only adds, variable by variable. -/
theorem accrues_removeWeights (h : f.removeWeights v log = .ok (g, d) log') : f.Accrues g := by
  by_cases hstays : f.StaysAsIs v
  · obtain ⟨_, hkeep⟩ := removeWeights_of_stays hstays log
    cases hkeep.symm.trans h
    exact .refl f
  rw [removeWeights_of_not_stays hstays] at h
  obtain ⟨⟨xs, f₁⟩, log₁, haux, h⟩ := Logged.bind_eq_ok.mp h
  obtain ⟨f₂, log₂, hpositive, h⟩ := Logged.bind_eq_ok.mp h
  obtain ⟨f₃, log₃, hnegative, h⟩ := Logged.bind_eq_ok.mp h
  obtain ⟨_, log₄, -, hret⟩ := Logged.bind_eq_ok.mp h
  cases hret
  have h₁ := accrues_addAuxiliaries (Logged.lift_eq_ok.mp haux).1
  have h₂ := accrues_addShare (Logged.lift_eq_ok.mp hpositive).1
  have h₃ := accrues_addShare (Logged.lift_eq_ok.mp hnegative).1
  exact (h₁.trans h₂).trans h₃

theorem accrues_reduce (h : f.reduce log = .ok (g, d) log') : f.Accrues g := by
  obtain ⟨vs, log₁, -, hrun⟩ := Logged.bind_eq_ok.mp h
  refine Logged.foldlM_induction (fun _ (s : Formula × Nat) _ => f.Accrues s.1) ?_ (.refl f) hrun
  intro done v s s' log₂ log₃ _ hdone hstep
  obtain ⟨⟨k, e⟩, log₄, hremove, hret⟩ := Logged.bind_eq_ok.mp hstep
  cases hret
  exact hdone.trans (accrues_removeWeights hremove)

private theorem Removal.accrues {w : Weight} (h : Removal f v w g d) : f.Accrues g := by
  cases h with
  | half => exact .refl f
  | certain b _ hadd => exact accrues_addClause (List.cons_ne_nil _ _) hadd
  | chains _ _ _ hauxiliaries hup _ hdown =>
    exact ((accrues_addAuxiliaries hauxiliaries).trans (accrues_addGuardedChain hup)).trans
      (accrues_addGuardedChain hdown)

private theorem accrues_comment (f : Formula) (a : Adjustment) : f.Accrues (f.addComment a.comment) := by
  refine ⟨[], _, grows_addComment f _, fun line hline => ?_⟩
  rw [List.mem_singleton.mp hline]
  exact ⟨_, rfl, by simp [Weight.text]⟩

/-- The dyadic reduction only adds, variable by variable. -/
theorem accrues_roundWeights {denom : Int64} {rounding : Rounding} {as : List Adjustment}
    (h : f.roundWeights denom rounding v log = .ok (g, d, as) log') : f.Accrues g := by
  cases treatment_of_roundWeights h with
  | unweighted => exact .refl f
  | skipped => exact .refl f
  | rounded _ _ _ _ _ _ _ _ _ hremove =>
    exact (accrues_comment f _).trans (removal_of_removeRounded hremove).1.accrues

theorem accrues_reduceDyadic {bits : Nat} {rounding : Rounding} {r : DyadicReduction}
    (h : f.reduceDyadic bits rounding log = .ok (g, r) log') : f.Accrues g := by
  obtain ⟨-, vs, -, hrun⟩ := reduceDyadic_eq_ok.mp h
  refine Logged.foldlM_induction (fun _ (s : Formula × DyadicReduction) _ => f.Accrues s.1) ?_ (.refl f) hrun
  rintro done v ⟨k, r'⟩ s' log₂ log₃ _ hdone hnext
  obtain ⟨k', e, as, hround, rfl⟩ := roundNext_eq_ok.mp hnext
  exact hdone.trans (accrues_roundWeights hround)

/-- A formula, and what becomes of it by reductions. -/
inductive Reduces (f : Formula) : Formula → Prop
  | refl : Reduces f f
  | exact {g k : Formula} {d : Nat} {log log' : Log} (h : Reduces f g) (hk : g.reduce log = .ok (k, d) log') :
    Reduces f k
  | dyadic {g k : Formula} {bits : Nat} {rounding : Rounding} {r : DyadicReduction} {log log' : Log}
    (h : Reduces f g) (hk : g.reduceDyadic bits rounding log = .ok (k, r) log') : Reduces f k

private theorem Reduces.accrues (h : f.Reduces g) : f.Accrues g := by
  induction h with
  | refl => exact .refl f
  | exact _ hk ih => exact ih.trans (accrues_reduce hk)
  | dyadic _ hk ih => exact ih.trans (accrues_reduceDyadic hk)

section Parsed
variable {source : Source} {format : WeightFormat}

/-- A formula that was read without a complaint is read again as it was written, and so is whatever reductions make of
it: with the same counts, the same support in the same order and no weights, and it is written as the same bytes again.
There are few enough clauses for that when a formula was read; reductions can add too many. -/
theorem parse_reduced (hending : source.ending = .endOfInput) (hparse : parse source format #[] = .ok f log)
    (haccepted : ∀ e, .formulaNotRead e ∉ log.toList) (hr : f.SupportInRange) :
    f.clauseCount < 2 ^ 63 ∧ ∀ g, f.Reduces g → g.clauseCount < 2 ^ 63 →
      ∀ again : Source, again.content = g.bytes → again.ending = .endOfInput → ∀ log₁,
        ∃ k, parse again .mc20 log₁ = .ok k (log₁.push (.headerRead g.variableCount g.clauseCount)) ∧
          k.variableCount = g.variableCount ∧ k.clauseCount = g.clauseCount ∧
          k.support.toList = g.support.toList ∧ (∀ l : Literal, k.weights[l]? = none) ∧ k.format = .mc20 ∧
          k.bytes = g.bytes := by
  have haccords := accords_of_parse hparse haccepted
  refine ⟨haccords.clauseCount_lt, fun g hreduces hclauses again hcontent hagain log₁ => ?_⟩
  have hbody : ∀ line ∈ f.body.toList, IsPlainLine line.text := by
    rw [parse_eq_readFrom hending] at hparse
    exact fun line hline => ((isKept_of_readFrom hparse (.inr haccepted)).1 line hline).isPlainLine
  have hvariables : g.variableCount < 2 ^ 63 :=
    Nat.lt_of_le_of_lt hreduces.accrues.variableCount_le_max
      (Nat.max_lt.mpr ⟨haccords.variableCount_lt, by decide⟩)
  have hread := readFrom_lines (f := g) (List.forall_mem_nil _)
    (by simpa using hreduces.accrues.isPlainLine hbody) (hreduces.accrues.supportInRange hr) hvariables hclauses log₁
  rw [parse_eq_readFrom hagain, hcontent]
  refine ⟨g.readBack [], hread, rfl, rfl, toList_support_readBack [], by simp [readBack], rfl, ?_⟩
  exact congrArg (fun lines => Text.Utf8.encode (unlines lines)) (lines_readBack g)

def weighedSource : Source :=
  { content := Text.Utf8.encode "p cnf 3 1\nc ind 3 1 0\nc kept\nw 1 1/3\nw 3 1/2\n1 2 3 0\n".toList }

theorem parse_reduced_weighed : ∃ f log g r log', parse weighedSource .detect #[] = .ok f log ∧
    f.reduceDyadic 3 .near log = .ok (g, r) log' ∧ g.clauseCount < 2 ^ 63 ∧ g.variableCount = 6 ∧
    ∀ again : Source, again.content = g.bytes → again.ending = .endOfInput →
      ∃ k log₂, parse again .mc20 #[] = .ok k log₂ ∧ k.variableCount = 6 ∧ k.bytes = g.bytes := by
  obtain ⟨f, log, hparse, hlog, hr, hreduced⟩ := parse_of_reads (rfl : weighedSource.ending = .endOfInput) .detect
    (fun f log => log = #[.headerRead 3 1, .formatDetected .cachet] ∧ f.SupportInRange ∧
      gives (fun s _ => s.1.clauseCount < 2 ^ 63 ∧ s.1.variableCount = 6) (f.reduceDyadic 3 .near log) = true)
    (by decide +kernel)
  obtain ⟨⟨g, r⟩, log', hreduce, hclauses, hvariables⟩ := exists_of_gives hreduced
  refine ⟨f, log, g, r, log', hparse, hreduce, hclauses, hvariables, fun again hcontent hagain => ?_⟩
  obtain ⟨k, hk, hsame, -, -, -, -, hbytes⟩ := (parse_reduced rfl hparse (by simp [hlog]) hr).2 g
    (.dyadic .refl hreduce) hclauses again hcontent hagain #[]
  exact ⟨k, _, hk, hsame.trans hvariables, hbytes⟩

def crowdedSource : Source :=
  { content := Text.Utf8.encode "p cnf 1 9223372036854775807\nw 1 1/3\n".toList }

/-- Its reduction has so many clauses that the header is not read again. -/
theorem parse_reduced_crowded : ∃ f log g d log', parse crowdedSource .detect #[] = .ok f log ∧
    (∀ e, .formulaNotRead e ∉ log.toList) ∧ f.SupportInRange ∧ f.reduce log = .ok (g, d) log' ∧
    g.variableCount = 3 ∧ g.clauseCount = 2 ^ 63 + 2 ∧
    ∃ k, parse { content := g.bytes } .mc20 #[] = .ok k #[.formulaNotRead (.onLine 1 (.stream
        (.notAnInteger ⟨1, 8⟩ "9223372036854775810".toList)))] ∧ k.variableCount = 0 ∧ k.clauseCount = 0 := by
  obtain ⟨f, log, hparse, hlog, hr, hreduced⟩ := parse_of_reads (rfl : crowdedSource.ending = .endOfInput) .detect
    (fun f log => log = #[.headerRead 1 9223372036854775807, .formatDetected .cachet] ∧ f.SupportInRange ∧
      gives (fun s _ => s.1.variableCount = 3 ∧ s.1.clauseCount = 2 ^ 63 + 2 ∧
        gives (fun k log₂ => log₂ = #[.formulaNotRead (.onLine 1 (.stream
            (.notAnInteger ⟨1, 8⟩ "9223372036854775810".toList)))] ∧ k.variableCount = 0 ∧ k.clauseCount = 0)
          (readFrom (⟨s.1.bytes, {}⟩ : PlainStream) .mc20 #[]) = true) (f.reduce log) = true)
    (by decide +kernel)
  obtain ⟨⟨g, d⟩, log', hreduce, hvariables, hclauses, hagain⟩ := exists_of_gives hreduced
  obtain ⟨k, _, hk, rfl, hnone⟩ := parse_of_reads
    (rfl : ({ content := g.bytes } : Source).ending = .endOfInput) .mc20 _ hagain
  exact ⟨f, log, g, d, log', hparse, by simp [hlog], hr, hreduce, hvariables, hclauses, k, hk, hnone⟩

end Parsed
end Formula
end WeightedCnf

import WeightedCnf.Proofs.DimacsLines

/-! When a formula reads in structured form: its body means clauses by itself, and the header tells the
truth about them. -/
namespace WeightedCnf
open Dimacs

private theorem foldl_max_le {α : Type} (f : α → Nat) (xs : List α) (m n : Nat) :
    xs.foldl (fun k x => max k (f x)) m ≤ n ↔ m ≤ n ∧ ∀ x ∈ xs, f x ≤ n := by
  induction xs generalizing m with
  | nil => simp
  | cons x xs ih => rw [List.foldl_cons, ih, max_le_iff, List.forall_mem_cons, and_assoc]

private theorem Cnf.largestVariable_le {clauses : List Clause} {n : Nat} :
    largestVariable clauses ≤ n ↔ OnlyOver (·.number ≤ n) clauses := by
  have h : ∀ m, clauses.foldl (fun n clause => clause.foldl (fun n l => max n l.var.number) n) m ≤ n ↔
      m ≤ n ∧ OnlyOver (·.number ≤ n) clauses := by
    induction clauses with
    | nil => simp [OnlyOver]
    | cons c cs ih =>
      intro m
      rw [List.foldl_cons, ih, foldl_max_le (fun l : Literal => l.var.number), and_assoc]
      simp only [OnlyOver, List.forall_mem_cons]
  rw [largestVariable, h]
  exact and_iff_right (Nat.zero_le n)

namespace Formula
variable {f : Formula} {cnf : Cnf}

private theorem headerLine_eq (f : Formula) :
    f.headerLine = 'p' :: ' ' :: unwords ["cnf".toList, Text.Decimal.digits f.variableCount,
      Text.Decimal.digits f.clauseCount] := by
  unfold headerLine
  rw [unwords_cons_cons, unwords_cons_cons, unwords_singleton, List.append_assoc]
  rfl

private theorem read_headerLine (f : Formula) (line : Nat) :
    Header.read line f.headerLine =
      if Variable.limit < f.variableCount then
        .error (.literalTooLarge line (f.variableCount / 10) (f.variableCount % 10))
      else .ok ⟨f.variableCount, f.clauseCount⟩ := by
  have hcnf : Text.IsWord ['c', 'n', 'f'] := Text.isWord_of_all (List.cons_ne_nil _ _) rfl
  have hwords : Text.words (unwords ["cnf".toList, Text.Decimal.digits f.variableCount,
    Text.Decimal.digits f.clauseCount]) = _ := words_unwords (by simp [Text.isWord_digits, hcnf])
  rw [headerLine_eq]
  unfold Header.read
  simp only [List.drop_succ_cons, List.drop_zero, hwords, Text.Decimal.read?_digits]
  rfl

private theorem isInline_headerLine (f : Formula) : Scanner.IsInline f.headerLine := by
  unfold headerLine
  simp

theorem isInline_supportLine (vs : List Variable) :
    Scanner.IsInline (" ind ".toList ++ zeroTerminated (vs.map (Text.Decimal.digits ·.number))) := by
  simp [zeroTerminated]

private theorem reads_supportLine (f : Formula) {lines : List (List Char)} {clauses : List Clause} :
    BodyReads (f.supportLine? ++ lines) clauses ↔ BodyReads lines clauses := by
  unfold supportLine?
  split
  · exact Iff.rfl
  · exact BodyReads.comment_cons (isInline_supportLine _)

private theorem scan_text (f : Formula) {s : Scanner} : Scanner.scan {} f.text = .ok s ↔
    f.variableCount ≤ Variable.limit ∧
      Scanner.scan { line := 2, header := some ⟨f.variableCount, f.clauseCount⟩ }
        (unlines (f.supportLine? ++ f.body.toList.map Line.text)) = .ok s := by
  have hinline := isInline_headerLine f
  have hread := read_headerLine f 2
  obtain ⟨text, htext⟩ : ∃ text, f.headerLine = 'p' :: text := ⟨_, headerLine_eq f⟩
  rw [htext] at hinline hread
  have htail : Scanner.IsInline text :=
    ⟨fun h => hinline.1 (List.mem_cons_of_mem _ h), fun h => hinline.2 (List.mem_cons_of_mem _ h)⟩
  rw [Formula.text, lines, unlines, List.flatMap_cons, Scanner.scan_append, htext, Scanner.scan_header htail, hread]
  split
  · rename_i hlimit
    constructor
    · rintro ⟨⟩
    · exact fun h => absurd h.1 (Nat.not_le.mpr hlimit)
  · rename_i hlimit
    exact (and_iff_right (Nat.not_lt.mp hlimit)).symm

private theorem finish_body {s : Scanner} (header : Header) (hm : s.mode = .clauses true .none)
    (hh : s.header = some header) : s.finish = .ok cnf ↔ s.literals = [] ∧
      OnlyOver (·.number ≤ header.variableCount) s.clauses.toList ∧
      s.clauses.toList.length = header.clauseCount ∧ cnf = ⟨header.variableCount, s.clauses.toList⟩ := by
  obtain ⟨line, mode, _, literals, clauses⟩ := s
  cases hm
  cases hh
  rw [← Cnf.largestVariable_le]
  cases literals with
  | cons l ls => exact ⟨(nomatch ·), fun h => nomatch h.1⟩
  | nil =>
    have hfinish : Scanner.finish ⟨line, .clauses true .none, some header, [], clauses⟩ =
        if max header.variableCount (Cnf.largestVariable clauses.toList) ≠ header.variableCount then
          .error (.wrongVariableCount (max header.variableCount (Cnf.largestVariable clauses.toList))
            header.variableCount)
        else if clauses.toList.length ≠ header.clauseCount then
          .error (.wrongClauseCount clauses.toList.length header.clauseCount)
        else .ok ⟨max header.variableCount (Cnf.largestVariable clauses.toList), clauses.toList⟩ := rfl
    rw [hfinish, ← max_eq_left_iff]
    by_cases hv : max header.variableCount (Cnf.largestVariable clauses.toList) = header.variableCount
    · rw [if_neg (not_not_intro hv), hv]
      by_cases hc : clauses.toList.length = header.clauseCount
      · rw [if_neg (not_not_intro hc), Except.ok.injEq]
        exact ⟨fun h => ⟨rfl, rfl, hc, h.symm⟩, fun h => h.2.2.2.symm⟩
      · rw [if_pos hc]
        exact ⟨(nomatch ·), fun h => absurd h.2.2.1 hc⟩
    · rw [if_pos hv]
      exact ⟨(nomatch ·), fun h => absurd h.2.1 hv⟩

/-- The formula reads in structured form exactly when its header tells the truth about its body. -/
theorem toCnf_eq_ok_iff : f.toCnf = .ok cnf ↔
    f.variableCount ≤ Variable.limit ∧ BodyReads (f.body.toList.map Line.text) cnf.clauses ∧
      OnlyOver (·.number ≤ f.variableCount) cnf.clauses ∧ cnf.clauses.length = f.clauseCount ∧
      cnf.variableCount = f.variableCount := by
  have hread : f.toCnf = .ok cnf ↔ ∃ cnf', (∃ s, Scanner.scan {} f.text = .ok s ∧ s.finish = .ok cnf') ∧
      ({ cnf' with variableCount := f.variableCount } : Cnf) = cnf := by
    rw [toCnf, bind_eq_ok]
    simp only [Dimacs.read, bind_eq_ok]
    exact exists_congr fun cnf' => and_congr_right fun _ => ⟨Except.ok.inj, congrArg _⟩
  rw [hread, ← reads_supportLine f]
  constructor
  · rintro ⟨_, ⟨s, hs, hfinish⟩, rfl⟩
    obtain ⟨hlimit, hbody⟩ := (scan_text f).mp hs
    obtain ⟨hheader, line, hshift⟩ := Scanner.scan_shift 1 ⟨0, 0⟩ (by simp) hbody
    obtain ⟨hl, hover, hlen, rfl⟩ := (finish_body _ (Scanner.mode_of_scan_unlines rfl hbody) hheader).mp hfinish
    exact ⟨hlimit, ⟨_, hshift, hl, rfl⟩, hover, hlen, rfl⟩
  · rintro ⟨hlimit, ⟨s, hs, hl, hclauses⟩, hover, hlen, hcount⟩
    obtain ⟨-, line, hshift⟩ := Scanner.scan_shift 2 ⟨f.variableCount, f.clauseCount⟩ (by simp) hs
    refine ⟨⟨f.variableCount, cnf.clauses⟩, ⟨_, (scan_text f).mpr ⟨hlimit, hshift⟩, ?_⟩, ?_⟩
    · refine (finish_body ⟨f.variableCount, f.clauseCount⟩
        (Scanner.mode_of_scan_unlines rfl hshift) rfl).mpr ?_
      rw [← hclauses] at hover hlen ⊢
      exact ⟨hl, hover, hlen, rfl⟩
    · rw [← hcount]

end Formula
end WeightedCnf

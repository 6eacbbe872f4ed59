import WeightedCnf.Count
import WeightedCnf.Proofs.BufferedReading
import WeightedCnf.Proofs.CarefulReading

/-! What can be relied on after a text was read, whatever the source delivers: there is a formula, unless headers
ask for too many variables, and what is known of it is within range, unless a header takes back what an earlier one
announced. -/
namespace WeightedCnf

namespace Projection
variable {p : Projection} {vs : List Variable}

private theorem exists_foldlM_insert (h : ∀ v ∈ vs, v.index < p.size) :
    ∃ q, vs.foldlM insert p = .ok q ∧ q.size = p.size ∧
      ∀ i, q.contains i = true ↔ p.contains i = true ∨ ∃ v ∈ vs, v.index = i := by
  induction vs generalizing p with
  | nil => exact ⟨p, rfl, rfl, by simp⟩
  | cons v vs ih =>
    have hinsert : p.insert v = .ok ⟨p.size, p.marks ||| 1 <<< v.index⟩ := if_pos (h v List.mem_cons_self)
    obtain ⟨q, hq, hsize, hcontains⟩ := ih (p := ⟨p.size, p.marks ||| 1 <<< v.index⟩) fun u hu =>
      h u (List.mem_cons_of_mem v hu)
    refine ⟨q, by rw [List.foldlM_cons, hinsert]; exact hq, hsize, fun i => ?_⟩
    rw [hcontains, contains, Nat.testBit_or, Nat.one_shiftLeft, Nat.testBit_two_pow]
    simp [contains, or_assoc]

/-- Variables within range are chosen, and no others. -/
theorem exists_ofList {size : Nat} (h : ∀ v ∈ vs, v.index < size) :
    ∃ q, ofList size vs = .ok q ∧ q.size = size ∧ ∀ i, q.contains i = true ↔ ∃ v ∈ vs, v.index = i := by
  obtain ⟨q, hq, hsize, hcontains⟩ := exists_foldlM_insert (p := none size) h
  exact ⟨q, hq, hsize, fun i => by rw [hcontains]; simp [contains, none]⟩

end Projection

namespace Formula
variable {f g k : Formula} {v : Variable}

/-- The variables of the support and those that were given weights are among the ones that the header announces. -/
structure InRange (f : Formula) : Prop where
  support : f.SupportInRange
  weights : ∀ (l : Literal) w, f.weights[l]? = some w → l.var.number ≤ f.variableCount

/-- The projection on the support chooses variables of the formula. -/
theorem InRange.exists_projection (h : f.InRange) : ∃ projection, f.projection? = .ok projection ∧
    ∀ p ∈ projection, p.size = f.variableCount ∧ ∀ i, p.contains i = true → i < f.variableCount := by
  unfold projection?
  split
  · exact ⟨none, rfl, by simp⟩
  · obtain ⟨q, hq, hsize, hcontains⟩ := Projection.exists_ofList h.support
    refine ⟨some q, by rw [hq]; rfl, fun p hp => ?_⟩
    cases hp
    refine ⟨hsize, fun i hi => ?_⟩
    obtain ⟨v, hv, rfl⟩ := (hcontains i).mp hi
    exact h.support v hv

/-- A formula, and what becomes of it when variables, clauses and other lines are added, and variables that it has
are added to the support. -/
inductive Becomes (f : Formula) : Formula → Prop
  | refl : Becomes f f
  | addVariable {g k : Formula} {v : Variable} (h : Becomes f g) (hk : g.addVariable = .ok (v, k)) : Becomes f k
  | addSupport {g : Formula} {v : Variable} (h : Becomes f g) (hv : v.number ≤ g.variableCount) :
    Becomes f (g.addSupport v)
  | addLine {g : Formula} (h : Becomes f g) (line : Line) : Becomes f (g.addLine line)
  | addClause {g k : Formula} {clause : Clause} (h : Becomes f g) (hk : g.addClause clause = .ok k) : Becomes f k

/-- No addition leaves the range. -/
theorem Becomes.inRange (h : f.Becomes g) (hf : f.InRange) : g.InRange := by
  induction h with
  | refl => exact hf
  | addVariable _ hk ih =>
    obtain ⟨-, rfl⟩ := addVariable_eq_ok hk
    exact ⟨fun v hv => Nat.le_succ_of_le (ih.support v hv), fun l w hw => Nat.le_succ_of_le (ih.weights l w hw)⟩
  | addSupport _ hv ih =>
    refine ⟨fun u hu => ?_, ih.weights⟩
    rcases Support.mem_insert.mp hu with hu | rfl
    · exact ih.support u hu
    · exact hv
  | addLine _ line ih => exact ⟨ih.support, ih.weights⟩
  | addClause _ hk ih =>
    unfold Formula.addClause at hk
    split at hk
    · cases hk
      exact ⟨ih.support, ih.weights⟩
    · cases hk

/-- A new variable is not in the support, and its literals have no weights. -/
theorem InRange.addVariable (h : f.InRange) (hg : f.addVariable = .ok (v, g)) :
    v ∉ f.support.toList ∧ ∀ l : Literal, l.var = v → f.weight l = .one := by
  obtain ⟨hnumber, -⟩ := addVariable_eq_ok hg
  refine ⟨fun hv => absurd (h.support v hv) (by omega), fun l hl => ?_⟩
  unfold weight
  cases hw : f.weights[l]? with
  | none => rfl
  | some w => exact absurd (h.weights l w hw) (by rw [hl]; omega)

section Parsed
variable {source : Source} {format : WeightFormat} {log : Log}

/-- How reading a stream ends: with a formula that accords with the headers, or with a complaint and a formula
without variables and clauses, or with a fault for which headers are to blame. -/
theorem readFrom_cases {σ : Type} [ByteStream σ] (stream : σ) (format : WeightFormat) :
    (∃ f log, readFrom stream format #[] = .ok f log ∧ f.Accords log ∧ ∀ e, .formulaNotRead e ∉ log.toList) ∨
    (∃ f, ∃ log : Log, ∃ e, readFrom stream format #[] = .ok f (log.push (.formulaNotRead e)) ∧ f.variableCount = 0 ∧
      f.clauseCount = 0) ∨
    ∃ cause log, readFrom stream format #[] = .error cause log ∧ log.Explains cause := by
  have hstart : ({ stream, format } : Reader σ).IsSound := ⟨accords_empty _, fun e he => nomatch he⟩
  have hend := Reading.careful_file (ByteStream.unread stream + 1) { stream, format } hstart (List.Subset.refl _)
  unfold readFrom
  cases hfile : Reading.file (ByteStream.unread stream + 1) ({ stream, format } : Reader σ) with
  | ok u r =>
    rw [hfile] at hend
    obtain ⟨⟨haccords, haccepted⟩, -⟩ := hend
    refine .inl ⟨_, _, rfl, ?_, haccepted⟩
    exact ⟨haccords.variableCount_lt, haccords.clauseCount_lt, haccords.announced, haccords.support,
      haccords.weights, haccords.isUnsigned⟩
  | error stop r =>
    rw [hfile] at hend
    cases stop with
    | error e => exact .inr (.inl ⟨_, _, e, rfl, rfl, rfl⟩)
    | fault cause => exact .inr (.inr ⟨cause, _, rfl, hend⟩)

/-- A formula that was read without a complaint accords with the headers. -/
theorem accords_of_parse (hparse : parse source format #[] = .ok f log)
    (haccepted : ∀ e, .formulaNotRead e ∉ log.toList) : f.Accords log := by
  rcases readFrom_cases (BufferedStream.ofSourceUsual source) format with ⟨f', log', hread, haccords, -⟩ |
    ⟨f', log', e, hread, -⟩ | ⟨cause, log', hread, -⟩
  · cases hparse.symm.trans hread
    exact haccords
  · cases hparse.symm.trans hread
    exact absurd (by simp) (haccepted e)
  · cases hparse.symm.trans hread

/-- Reading gives a formula, whatever the source delivers; a malformed text gives one without variables and clauses.
Only when a header asks for more variables than there can be is a precondition broken. -/
theorem parse_returns (source : Source) (format : WeightFormat) :
    (∃ f log, parse source format #[] = .ok f log ∧ ((∀ e, .formulaNotRead e ∉ log.toList) ∨
      (∃ log' : Log, ∃ e, log = log'.push (.formulaNotRead e)) ∧ f.variableCount = 0 ∧ f.clauseCount = 0)) ∨
    ∃ (number : Int) (log : Log), parse source format #[] = .error (.noSuchVariable number) log ∧
      Variable.limit < number.natAbs ∧ log.Announces number.natAbs := by
  rcases readFrom_cases (BufferedStream.ofSourceUsual source) format with ⟨f, log, hread, -, haccepted⟩ |
    ⟨f, log, e, hread, hvariables, hclauses⟩ | ⟨cause, log, hread, n, rfl, hlimit, hannounced⟩
  · exact .inl ⟨f, log, hread, .inl haccepted⟩
  · exact .inl ⟨f, _, hread, .inr ⟨⟨log, e, rfl⟩, hvariables, hclauses⟩⟩
  · exact .inr ⟨n, log, hread, hlimit, hannounced⟩

/-- A text of which the only variable that matters has a number beyond the last one. -/
def overflowingSource : Source :=
  { content := Text.Utf8.encode "p cnf 268435457 0\nc ind 268435457 0\n".toList }

/-- Reading can break a precondition. -/
theorem parse_overflowing : ∃ log, parse overflowingSource .detect #[] = .error (.noSuchVariable 268435457) log := by
  rw [parse_eq_readFrom rfl]
  exact exists_of_failsWith (by decide +kernel)

/-- A formula that was read has no variables and clauses, or headers announce the variables of its support and those
that were given weights. If none of them announces more than the last one, these variables are within range: the
projection on the support chooses variables of the formula, and new variables are neither in the support nor
weighted. -/
theorem parse_inRange (hparse : parse source format #[] = .ok f log) : f.variableCount = 0 ∧ f.clauseCount = 0 ∨
    (∀ v ∈ f.support.toList, log.Announces v.number) ∧
    (∀ (l : Literal) w, f.weights[l]? = some w → log.Announces l.var.number) ∧
    ((∀ variableCount clauseCount, .headerRead variableCount clauseCount ∈ log.toList →
        variableCount ≤ f.variableCount) →
      f.InRange ∧
      (∃ projection, f.projection? = .ok projection ∧ ∀ p ∈ projection, p.size = f.variableCount ∧
        ∀ i, p.contains i = true → i < f.variableCount) ∧
      ∀ g k v, f.Becomes g → g.addVariable = .ok (v, k) →
        v ∉ g.support.toList ∧ ∀ l : Literal, l.var = v → g.weight l = .one) := by
  rcases readFrom_cases (BufferedStream.ofSourceUsual source) format with ⟨f', log', hread, haccords, -⟩ |
    ⟨f', log', e, hread, hvariables, hclauses⟩ | ⟨cause, log', hread, -⟩
  · cases hparse.symm.trans hread
    refine .inr ⟨haccords.support, haccords.weights, fun hheaders => ?_⟩
    have hle {n : Nat} (h : log.Announces n) : n ≤ f.variableCount := by
      obtain ⟨variableCount, clauseCount, hmem, hn⟩ := h
      exact hn.trans (hheaders _ _ hmem)
    have hrange : f.InRange := ⟨fun v hv => hle (haccords.support v hv), fun l w hw => hle (haccords.weights l w hw)⟩
    exact ⟨hrange, hrange.exists_projection, fun g k v hg hk => (hg.inRange hrange).addVariable hk⟩
  · cases hparse.symm.trans hread
    exact .inl ⟨hvariables, hclauses⟩
  · cases hparse.symm.trans hread

def growingSource : Source :=
  { content := Text.Utf8.encode "p cnf 1 0\nc ind 1 0\nw 1 0.5\np cnf 3 0\n".toList }

theorem parse_inRange_growing : ∃ f log, parse growingSource .detect #[] = .ok f log ∧ f.variableCount = 3 ∧
    f.InRange ∧ (∃ projection, f.projection? = .ok projection) ∧
    ∀ g k v, f.Becomes g → g.addVariable = .ok (v, k) → v ∉ g.support.toList := by
  obtain ⟨f, log, hparse, hcount, hlog⟩ := parse_of_reads (rfl : growingSource.ending = .endOfInput) .detect
    (fun f log => f.variableCount = 3 ∧ log = #[.headerRead 1 0, .headerRead 3 0, .formatDetected .cachet])
    (by decide +kernel)
  have hheaders (variableCount clauseCount : Nat) (hmem : .headerRead variableCount clauseCount ∈ log.toList) :
      variableCount ≤ f.variableCount := by
    simp [hlog] at hmem
    omega
  rcases parse_inRange hparse with ⟨hnone, -⟩ | ⟨-, -, hrange⟩
  · rw [hcount] at hnone
    cases hnone
  · obtain ⟨hrange, ⟨projection, hprojection, -⟩, hnew⟩ := hrange hheaders
    exact ⟨f, log, hparse, hcount, hrange, ⟨projection, hprojection⟩, fun g k v hg hk => (hnew g k v hg hk).1⟩

def shrinkingSource : Source :=
  { content := Text.Utf8.encode "p cnf 3 0\nc ind 3 0\np cnf 1 0\n".toList }

/-- A header can take back the variables of the support: there is no projection on it then, and a new variable can be
one of them. -/
theorem parse_shrinking : ∃ f log, parse shrinkingSource .detect #[] = .ok f log ∧ f.variableCount = 1 ∧
    ¬ f.InRange ∧ f.projection? = .error (.indexOutOfRange 2 1) ∧
    ∃ g k v, f.Becomes g ∧ g.addVariable = .ok (v, k) ∧ v ∈ g.support.toList := by
  obtain ⟨f, log, hparse, hcount, hsupport, hprojection⟩ := parse_of_reads
    (rfl : shrinkingSource.ending = .endOfInput) .detect
    (fun f _ => f.variableCount = 1 ∧ f.support.toList = [⟨2, by decide⟩] ∧
      f.projection? = .error (.indexOutOfRange 2 1)) (by decide +kernel)
  have hmem : (⟨2, by decide⟩ : Variable) ∈ f.support.toList := hsupport ▸ List.mem_singleton_self _
  refine ⟨f, log, hparse, hcount, fun hrange => absurd (hrange.support _ hmem) ?_, hprojection,
    { f with variableCount := 2 }, { f with variableCount := 3 }, _, .addVariable (v := ⟨1, by decide⟩) .refl ?_, ?_,
    hmem⟩
  · rw [hcount]
    decide
  · rw [addVariable, hcount]
    rfl
  · rfl

end Parsed
end Formula
end WeightedCnf

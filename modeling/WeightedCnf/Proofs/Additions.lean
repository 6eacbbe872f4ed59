import WeightedCnf.Proofs.Growth

/-! Additions to a formula, in any order and number. A formula that reads in structured form still does behind
them, with the added clauses behind its own ones. -/
namespace WeightedCnf
open Dimacs

/-- Something to be added to a formula. -/
inductive Addition where
  | freshVariable
  | clause (literals : Clause)
  | comment (text : List Char)
  | supported (v : Variable)
deriving DecidableEq, Repr

namespace Addition

def lines : Addition → List Line
  | clause c => [.clause c]
  | comment text => [.comment text]
  | freshVariable | supported _ => []

def clauses : Addition → List Clause
  | clause c => [c]
  | freshVariable | comment _ | supported _ => []

def variableCount : Addition → Nat
  | freshVariable => 1
  | clause _ | comment _ | supported _ => 0

end Addition

namespace Formula
variable {f g : Formula} {a : Addition} {additions : List Addition}

def add (f : Formula) : Addition → Except Fault Formula
  | .freshVariable => Prod.snd <$> f.addVariable
  | .clause c => f.addClause c
  | .comment text => .ok (f.addComment text)
  | .supported v => .ok (f.addSupport v)

def addAll (f : Formula) (additions : List Addition) : Except Fault Formula :=
  additions.foldlM add f

private theorem appends_add (h : f.add a = .ok g) : Appends f g a.variableCount a.lines := by
  cases a with
  | freshVariable =>
    obtain ⟨⟨v, k⟩, hk, hg⟩ := bind_eq_ok.mp h
    cases hg
    obtain ⟨-, rfl⟩ := addVariable_eq_ok hk
    exact ⟨rfl, rfl, (List.append_nil _).symm⟩
  | clause c => exact (grows_addClause h).appends
  | comment text =>
    cases h
    exact (grows_addComment _ text).appends
  | supported v =>
    cases h
    exact ⟨rfl, rfl, (List.append_nil _).symm⟩

private theorem appends_addAll (h : f.addAll additions = .ok g) :
    Appends f g (additions.map Addition.variableCount).sum (additions.flatMap Addition.lines) := by
  induction additions generalizing f with
  | nil =>
    cases h
    exact .refl _
  | cons a additions ih =>
    obtain ⟨k, hk, hg⟩ := bind_eq_ok.mp h
    exact (appends_add hk).trans (ih hg)

/-- As long as there are enough variables, only the number of clauses can get too large. -/
private theorem exists_add (hlimit : f.variableCount + a.variableCount ≤ Variable.limit) :
    (∃ g, f.add a = .ok g) ∨ f.add a = .error .overflow ∧ UInt64.size ≤ f.clauseCount + a.clauses.length := by
  cases a with
  | freshVariable =>
    obtain ⟨v, hv⟩ := exists_addVariable hlimit
    exact .inl ⟨_, bind_eq_ok.mpr ⟨_, hv, rfl⟩⟩
  | clause c =>
    by_cases hsize : f.clauseCount + 1 < UInt64.size
    · exact .inl ⟨_, addClause_eq_ok c hsize⟩
    · exact .inr ⟨if_neg hsize, Nat.not_lt.mp hsize⟩
  | comment text => exact .inl ⟨_, rfl⟩
  | supported v => exact .inl ⟨_, rfl⟩

private theorem clauses_lines (a : Addition) : a.lines.flatMap Line.clauses = a.clauses := by
  cases a <;> rfl

private theorem exists_addAll (hlimit : f.variableCount + (additions.map Addition.variableCount).sum ≤ Variable.limit) :
    (∃ g, f.addAll additions = .ok g) ∨ f.addAll additions = .error .overflow ∧
      UInt64.size ≤ f.clauseCount + (additions.flatMap Addition.clauses).length := by
  induction additions generalizing f with
  | nil => exact .inl ⟨f, rfl⟩
  | cons a additions ih =>
    rw [List.map_cons, List.sum_cons] at hlimit
    rw [List.flatMap_cons, List.length_append]
    rcases exists_add (f := f) (a := a) (by omega) with ⟨k, hk⟩ | ⟨herror, hsize⟩
    · have happends := appends_add hk
      have hclauses := happends.clauseCount
      rw [clauses_lines] at hclauses
      have hrun : f.addAll (a :: additions) = k.addAll additions := by
        rw [addAll, List.foldlM_cons, hk]
        rfl
      rw [hrun, ← Nat.add_assoc, ← hclauses]
      exact ih (by rw [happends.variableCount]; omega)
    · right
      constructor
      · rw [addAll, List.foldlM_cons, herror]
        rfl
      · omega

/-- Clauses over variables that there are in the end, comments on one line, variables and variables of the support
can be added in any order, unless a machine word cannot count the clauses. The formula then reads as before,
with the added clauses behind the old ones. -/
theorem toCnf_addAll {cnf : Cnf} (hcnf : f.toCnf = .ok cnf)
    (hlimit : f.variableCount + (additions.map Addition.variableCount).sum ≤ Variable.limit)
    (hinline : ∀ text, .comment text ∈ additions → Scanner.IsInline text)
    (hover : OnlyOver (·.number ≤ f.variableCount + (additions.map Addition.variableCount).sum)
      (additions.flatMap Addition.clauses)) :
    (∃ g, f.addAll additions = .ok g ∧
      g.variableCount = f.variableCount + (additions.map Addition.variableCount).sum ∧
      g.toCnf = .ok ⟨g.variableCount, cnf.clauses ++ additions.flatMap Addition.clauses⟩) ∨
    f.addAll additions = .error .overflow ∧
      UInt64.size ≤ cnf.clauses.length + (additions.flatMap Addition.clauses).length := by
  rcases exists_addAll hlimit with ⟨g, hg⟩ | ⟨herror, hsize⟩
  · have happends := appends_addAll hg
    have hclauses : (additions.flatMap Addition.lines).flatMap Line.clauses =
        additions.flatMap Addition.clauses := by
      rw [List.flatMap_assoc]
      exact List.flatMap_congr fun a _ => clauses_lines a
    have hadded : ∀ line ∈ additions.flatMap Addition.lines, line.IsAdded := by
      intro line hline
      obtain ⟨a, ha, hmem⟩ := List.mem_flatMap.mp hline
      cases a with
      | freshVariable => exact nomatch hmem
      | clause c => exact List.mem_singleton.mp hmem ▸ trivial
      | comment text => exact List.mem_singleton.mp hmem ▸ hinline text ha
      | supported v => exact nomatch hmem
    have hread := happends.toCnf (happends.variableCount ▸ hlimit) hcnf hadded
      (hclauses ▸ happends.variableCount ▸ hover)
    exact .inl ⟨g, hg, happends.variableCount, hclauses ▸ hread⟩
  · obtain ⟨-, -, -, hlength, -⟩ := toCnf_eq_ok_iff.mp hcnf
    exact .inr ⟨herror, hlength ▸ hsize⟩

/-- A clause on two lines with a comment between them. -/
def scattered : Formula :=
  (((ofCounts 2 1).addLine (.raw "1".toList)).addLine (.raw "c between".toList)).addLine (.raw " -2 0".toList)

def scatteredAdditions : List Addition :=
  [.clause [⟨⟨2, by decide⟩, false⟩, ⟨.one, true⟩], .comment "hello".toList, .freshVariable, .supported .one,
    .clause []]

theorem toCnf_addAll_scattered : ∃ cnf g, scattered.toCnf = .ok cnf ∧ scattered.addAll scatteredAdditions = .ok g ∧
    g.variableCount = 3 ∧
    g.toCnf = .ok ⟨3, cnf.clauses ++ [[⟨⟨2, by decide⟩, false⟩, ⟨.one, true⟩], []]⟩ := by
  obtain ⟨cnf, hcnf, hlength⟩ : ∃ cnf, scattered.toCnf = .ok cnf ∧ cnf.clauses.length = 1 := ⟨_, rfl, rfl⟩
  have hinline : ∀ text, .comment text ∈ scatteredAdditions → Scanner.IsInline text := by
    intro text htext
    have htext : text = "hello".toList := by simpa [scatteredAdditions] using htext
    exact htext ▸ (by decide : '\n' ∉ "hello".toList ∧ '\r' ∉ "hello".toList)
  have hover : OnlyOver (·.number ≤ scattered.variableCount + (scatteredAdditions.map Addition.variableCount).sum)
      (scatteredAdditions.flatMap Addition.clauses) := by
    unfold OnlyOver
    decide
  rcases toCnf_addAll hcnf (by decide) hinline hover with ⟨g, hg, hcount, hread⟩ | ⟨-, hsize⟩
  · have hthree : g.variableCount = 3 := hcount
    exact ⟨cnf, g, hcnf, hg, hthree, hthree ▸ hread⟩
  · exact absurd hsize (hlength ▸ by decide)

end Formula
end WeightedCnf

import WeightedCnf.Proofs.ToCnf
import WeightedCnf.Reduction.Auxiliary

/-! What a reduction adds to a formula: variables with the next numbers, which belong to the support if
there is one, and lines at the end. -/
namespace WeightedCnf
open Dimacs

namespace Variable

theorem number_injective : Function.Injective number := by
  rintro ⟨i, hi⟩ ⟨j, hj⟩ h
  simpa [number] using h

def one : Variable := ⟨0, by decide⟩

theorem number_le_limit (v : Variable) : v.number ≤ limit := v.index_lt

theorem number_of_ofNumber {n : Nat} {v : Variable} (h : ofNumber n = .ok v) : v.number = n := by
  unfold ofNumber at h
  split at h
  · rename_i hv
    cases h
    unfold ofNumber? at hv
    split at hv
    · cases hv
    · rename_i index hn
      split at hv
      · cases hv
        exact hn.symm
      · cases hv
  · cases h

theorem ofNumber?_number (v : Variable) : ofNumber? v.number = some v :=
  dif_pos v.index_lt

theorem ofNumber_number (v : Variable) : ofNumber (v.number : Int) = .ok v := by
  rw [ofNumber, Int.toNat_natCast, ofNumber?_number]

private theorem exists_ofNumber {n : Nat} (h : n + 1 ≤ limit) : ∃ v, ofNumber ((n + 1 : Nat) : Int) = .ok v := by
  have hnumber : ofNumber? (n + 1) = some ⟨n, h⟩ := dif_pos h
  refine ⟨⟨n, h⟩, ?_⟩
  rw [ofNumber, Int.toNat_natCast, hnumber]

theorem mem_first {count : Nat} {vs : List Variable} (h : first count = .ok vs) {v : Variable} :
    v ∈ vs ↔ v.number ≤ count := by
  unfold first at h
  split at h
  · cases h
    rw [List.mem_map]
    constructor
    · rintro ⟨i, -, rfl⟩
      exact i.isLt
    · exact fun hv => ⟨⟨v.index, hv⟩, List.mem_finRange _, rfl⟩
  · cases h

theorem nodup_first {count : Nat} {vs : List Variable} (h : first count = .ok vs) : vs.Nodup := by
  unfold first at h
  split at h
  · cases h
    apply (List.nodup_finRange count).map
    intro i j hij
    exact Fin.val_inj.mp (congrArg Variable.index hij)
  · cases h

end Variable

namespace Literal

theorem neg_injective : Function.Injective (Neg.neg : Literal → Literal) := by
  rintro ⟨v, p⟩ ⟨u, q⟩ h
  cases p <;> cases q <;> cases h <;> rfl

theorem natAbs_toInt (l : Literal) : l.toInt.natAbs = l.var.number := by
  rw [toInt]
  split
  · exact Int.natAbs_natCast _
  · rw [Int.natAbs_neg, Int.natAbs_natCast]

theorem toInt_ne_zero (l : Literal) : l.toInt ≠ 0 := by
  rw [← Int.natAbs_ne_zero, natAbs_toInt]
  exact Nat.succ_ne_zero _

private theorem toInt_pos_iff {l : Literal} : 0 < l.toInt ↔ l.positive = true := by
  have hpos : (0 : Int) < l.var.number := Int.natCast_pos.mpr (Nat.succ_pos _)
  rw [toInt]
  split
  · exact iff_of_true hpos ‹_›
  · exact iff_of_false (by omega) ‹_›

theorem ofInt_toInt (l : Literal) : ofInt l.toInt = .ok l := by
  have hpositive : decide (0 < l.toInt) = l.positive := by
    rw [Bool.eq_iff_iff, decide_eq_true_eq, toInt_pos_iff]
  rw [ofInt, ofInt?, natAbs_toInt, Variable.ofNumber?_number, Option.map_some, hpositive]

end Literal

namespace Formula

/-- The variables that matter, as a set: the support, or all variables when it is empty. -/
noncomputable def free (f : Formula) : Finset Variable :=
  if f.support.isEmpty then Finset.univ.filter (·.number ≤ f.variableCount)
  else f.support.toList.toFinset

theorem foldl_addSupport (vs : List Variable) (f : Formula) :
    vs.foldl addSupport f = { f with support := vs.foldl Support.insert f.support } := by
  induction vs generalizing f with
  | nil => rfl
  | cons v vs ih => exact ih (f.addSupport v)

/-- The variables of the support are among those that the header announces. -/
def SupportInRange (f : Formula) : Prop :=
  ∀ v ∈ f.support.toList, v.number ≤ f.variableCount

instance (f : Formula) : Decidable f.SupportInRange :=
  List.decidableBAll (fun v : Variable => v.number ≤ f.variableCount) f.support.toList

variable {f g k : Formula} {xs ys : List Variable} {added more : List Line} {v : Variable}

theorem mem_free : v ∈ f.free ↔
    if f.support.isEmpty then v.number ≤ f.variableCount else v ∈ f.support.toList := by
  unfold free
  split <;> simp

theorem free_eq_singleton (h : f.support.toList = [v]) : f.free = {v} := by
  have hne : ¬ f.support.isEmpty = true := by
    rw [Support.isEmpty_iff, h]
    exact List.cons_ne_nil _ _
  ext u
  rw [mem_free, if_neg hne, h, List.mem_singleton, Finset.mem_singleton]

theorem freeVariables_eq_ok (h : f.freeVariables = .ok xs) : xs.Nodup ∧ xs.toFinset = f.free := by
  unfold freeVariables at h
  unfold free
  split at h
  · rename_i he
    rw [if_pos he]
    refine ⟨Variable.nodup_first h, Finset.ext fun v => ?_⟩
    rw [List.mem_toFinset, Variable.mem_first h]
    simp
  · rename_i he
    cases h
    rw [if_neg he]
    exact ⟨f.support.nodup, rfl⟩

theorem SupportInRange.number_le (hr : f.SupportInRange) (hv : v ∈ f.free) : v.number ≤ f.variableCount := by
  rw [mem_free] at hv
  split at hv
  · exact hv
  · exact hr v hv

/-- `g` has so many more variables than `f`, and the lines `added` behind those of `f`. -/
structure Appends (f g : Formula) (fresh : Nat) (added : List Line) : Prop where
  variableCount : g.variableCount = f.variableCount + fresh
  clauseCount : g.clauseCount = f.clauseCount + (added.flatMap Line.clauses).length
  body : g.body.toList = f.body.toList ++ added

namespace Appends
variable {m n : Nat}

theorem refl (f : Formula) : Appends f f 0 [] :=
  ⟨rfl, rfl, (List.append_nil _).symm⟩

theorem trans (h : Appends f g m added) (h' : Appends g k n more) : Appends f k (m + n) (added ++ more) where
  variableCount := by rw [h'.variableCount, h.variableCount, Nat.add_assoc]
  clauseCount := by
    rw [h'.clauseCount, h.clauseCount, List.flatMap_append, List.length_append, Nat.add_assoc]
  body := by rw [h'.body, h.body, List.append_assoc]

/-- A formula that reads in structured form still does when clauses over its variables were added. -/
theorem toCnf (h : Appends f g n added) (hlimit : g.variableCount ≤ Variable.limit) {cnf : Cnf}
    (hf : f.toCnf = .ok cnf) (hadded : ∀ line ∈ added, line.IsAdded)
    (hover : OnlyOver (·.number ≤ g.variableCount) (added.flatMap Line.clauses)) :
    g.toCnf = .ok ⟨g.variableCount, cnf.clauses ++ added.flatMap Line.clauses⟩ := by
  obtain ⟨-, hreads, hold, hlen, -⟩ := toCnf_eq_ok_iff.mp hf
  have hle : f.variableCount ≤ g.variableCount := h.variableCount ▸ Nat.le_add_right _ _
  refine toCnf_eq_ok_iff.mpr ⟨hlimit, ?_, ?_, ?_, rfl⟩
  · rw [h.body, List.map_append]
    exact hreads.addLines hadded
  · exact (hold.mono fun v hv => hv.trans hle).append hover
  · rw [h.clauseCount, List.length_append, hlen]

end Appends

/-- `g` is `f` with the new variables `xs` and the lines `added`. -/
structure Grows (f g : Formula) (xs : List Variable) (added : List Line) : Prop where
  variableCount : g.variableCount = f.variableCount + xs.length
  numbers : xs.map Variable.number = List.range' (f.variableCount + 1) xs.length
  clauseCount : g.clauseCount = f.clauseCount + (added.flatMap Line.clauses).length
  body : g.body.toList = f.body.toList ++ added
  support : g.support = if f.support.isEmpty then f.support else xs.foldl Support.insert f.support
  weights : g.weights = f.weights
  format : g.format = f.format

private theorem mem_foldl_insert {s : Support} : 
    v ∈ (xs.foldl Support.insert s).toList ↔ v ∈ s.toList ∨ v ∈ xs := by
  induction xs generalizing s with
  | nil => simp
  | cons x xs ih => rw [List.foldl_cons, ih, Support.mem_insert, List.mem_cons, or_assoc]

private theorem isEmpty_foldl_insert {s : Support} (hs : s.isEmpty = false) :
    (xs.foldl Support.insert s).isEmpty = false := by
  rw [← Bool.not_eq_true, Support.isEmpty_iff] at hs ⊢
  obtain ⟨v, hv⟩ := List.exists_mem_of_ne_nil _ hs
  exact List.ne_nil_of_mem (mem_foldl_insert.mpr (.inl hv))

namespace Grows

theorem refl (f : Formula) : Grows f f [] [] :=
  ⟨rfl, rfl, rfl, (List.append_nil _).symm, by simp, rfl, rfl⟩

private theorem isEmpty_support (h : Grows f g xs added) : g.support.isEmpty = f.support.isEmpty := by
  rw [h.support]
  cases hs : f.support.isEmpty with
  | true => exact hs
  | false => exact isEmpty_foldl_insert hs

theorem trans (h : Grows f g xs added) (h' : Grows g k ys more) : Grows f k (xs ++ ys) (added ++ more) where
  variableCount := by rw [h'.variableCount, h.variableCount, List.length_append, Nat.add_assoc]
  numbers := by
    rw [List.map_append, h.numbers, h'.numbers, h.variableCount, List.length_append, Nat.add_right_comm,
      List.range'_append_1]
  clauseCount := by
    rw [h'.clauseCount, h.clauseCount, List.flatMap_append, List.length_append, Nat.add_assoc]
  body := by rw [h'.body, h.body, List.append_assoc]
  support := by
    rw [h'.support, h.isEmpty_support, h.support]
    split
    · rfl
    · rw [List.foldl_append]
  weights := h'.weights.trans h.weights
  format := h'.format.trans h.format

/-- The new variables have the numbers after those of the old ones. -/
theorem number_of_mem (h : Grows f g xs added) (hv : v ∈ xs) :
    f.variableCount < v.number ∧ v.number ≤ g.variableCount := by
  have hmem := List.mem_map_of_mem (f := Variable.number) hv
  rw [h.numbers, List.mem_range'_1] at hmem
  rw [h.variableCount]
  omega

theorem nodup (h : Grows f g xs added) : xs.Nodup := by
  apply List.Nodup.of_map Variable.number
  rw [h.numbers]
  exact List.nodup_range'

theorem mem_of_number (h : Grows f g xs added) (hlow : f.variableCount < v.number)
    (hhigh : v.number ≤ g.variableCount) : v ∈ xs := by
  have hmem : v.number ∈ xs.map Variable.number := by
    rw [h.numbers, List.mem_range'_1]
    rw [h.variableCount] at hhigh
    omega
  obtain ⟨u, hu, he⟩ := List.mem_map.mp hmem
  exact Variable.number_injective he ▸ hu

theorem free (h : Grows f g xs added) : g.free = f.free ∪ xs.toFinset := by
  ext v
  rw [Finset.mem_union, List.mem_toFinset, mem_free, mem_free, h.isEmpty_support, h.support]
  cases hs : f.support.isEmpty with
  | true =>
    constructor
    · intro hv
      exact (Nat.lt_or_ge f.variableCount v.number).symm.imp id fun hlow => h.mem_of_number hlow hv
    · rintro (hv | hv)
      · exact hv.trans (h.variableCount ▸ Nat.le_add_right _ _)
      · exact (h.number_of_mem hv).2
  | false => exact mem_foldl_insert

theorem disjoint_free (h : Grows f g xs added) (hr : f.SupportInRange) : Disjoint f.free xs.toFinset := by
  rw [Finset.disjoint_left]
  intro v hv hx
  have := hr.number_le hv
  have := h.number_of_mem (List.mem_toFinset.mp hx)
  omega

theorem supportInRange (h : Grows f g xs added) (hr : f.SupportInRange) : g.SupportInRange := by
  intro v hv
  rw [h.support] at hv
  split at hv
  · exact (hr v hv).trans (h.variableCount ▸ Nat.le_add_right _ _)
  · rcases mem_foldl_insert.mp hv with hv | hv
    · exact (hr v hv).trans (h.variableCount ▸ Nat.le_add_right _ _)
    · exact (h.number_of_mem hv).2

theorem weight (h : Grows f g xs added) (l : Literal) : g.weight l = f.weight l := by
  rw [Formula.weight, Formula.weight, h.weights]

/-- New variables exist, so they have numbers that there are. -/
theorem variableCount_le_max (h : Grows f g xs added) : g.variableCount ≤ max f.variableCount Variable.limit := by
  rcases Nat.eq_zero_or_pos xs.length with hlen | hlen
  · rw [h.variableCount, hlen]
    exact Nat.le_max_left _ _
  · have hmem : g.variableCount ∈ xs.map Variable.number := by
      rw [h.numbers, List.mem_range'_1, h.variableCount]
      omega
    obtain ⟨v, -, hv⟩ := List.mem_map.mp hmem
    exact hv ▸ v.number_le_limit.trans (Nat.le_max_right _ _)

private theorem variableCount_le (h : Grows f g xs added) (hf : f.variableCount ≤ Variable.limit) :
    g.variableCount ≤ Variable.limit :=
  h.variableCount_le_max.trans (Nat.max_le.mpr ⟨hf, Nat.le_refl _⟩)

theorem appends (h : Grows f g xs added) : Appends f g xs.length added :=
  ⟨h.variableCount, h.clauseCount, h.body⟩

private theorem toCnf (h : Grows f g xs added) {cnf : Cnf} (hf : f.toCnf = .ok cnf)
    (hadded : ∀ line ∈ added, line.IsAdded)
    (hover : OnlyOver (·.number ≤ g.variableCount) (added.flatMap Line.clauses)) :
    g.toCnf = .ok ⟨g.variableCount, cnf.clauses ++ added.flatMap Line.clauses⟩ :=
  h.appends.toCnf (h.variableCount_le (toCnf_eq_ok_iff.mp hf).1) hf hadded hover

/-- Clauses over one free variable and the new ones multiply the weight of every projected model by the
number of its extensions. -/
theorem sum_models (h : Grows f g xs added) (hr : f.SupportInRange) {cnf : Cnf} (hf : f.toCnf = .ok cnf)
    (hadded : ∀ line ∈ added, line.IsAdded) (hv : v ∈ f.free)
    (hover : OnlyOver (fun u => u = v ∨ u ∈ xs.toFinset) (added.flatMap Line.clauses)) :
    ∃ cnf', g.toCnf = .ok cnf' ∧ ∀ W : Valuation → ℚ, (∀ m, W (m.restrict f.free) = W m) →
      ∑ m ∈ cnf'.models g.free, W m =
        ∑ m ∈ cnf.models f.free, (extensions (added.flatMap Line.clauses) xs.toFinset v (m v) : ℚ) * W m := by
  obtain ⟨-, -, hold, -, -⟩ := toCnf_eq_ok_iff.mp hf
  have hle : f.variableCount ≤ g.variableCount := h.variableCount ▸ Nat.le_add_right _ _
  refine ⟨_, h.toCnf hf hadded (hover.mono ?_), fun W hW => ?_⟩
  · rintro u (rfl | hu)
    · exact (hr.number_le hv).trans hle
    · exact (h.number_of_mem (List.mem_toFinset.mp hu)).2
  · rw [Cnf.models, h.free]
    refine sum_projectedModels_append hv (h.disjoint_free hr) (hold.mono fun u hu hx => ?_) hover hW
    have := (h.number_of_mem (List.mem_toFinset.mp hx)).1
    omega

end Grows

section Operations
variable {count : Nat} {clauses : List Clause}

theorem addVariable_eq_ok (h : f.addVariable = .ok (v, g)) :
    v.number = f.variableCount + 1 ∧ g = { f with variableCount := f.variableCount + 1 } := by
  obtain ⟨u, hu, hg⟩ := bind_eq_ok.mp h
  cases hg
  exact ⟨Variable.number_of_ofNumber hu, rfl⟩

theorem exists_addVariable (h : f.variableCount + 1 ≤ Variable.limit) :
    ∃ v, f.addVariable = .ok (v, { f with variableCount := f.variableCount + 1 }) := by
  obtain ⟨v, hv⟩ := Variable.exists_ofNumber h
  exact ⟨v, bind_eq_ok.mpr ⟨v, hv, rfl⟩⟩

private theorem grows_addVariable (h : f.addVariable = .ok (v, g)) :
    Grows f (if f.support.isEmpty then g else g.addSupport v) [v] [] := by
  obtain ⟨hn, rfl⟩ := addVariable_eq_ok h
  cases hs : f.support.isEmpty with
  | true => exact ⟨rfl, by simp [hn], rfl, (List.append_nil _).symm, by simp [hs], rfl, rfl⟩
  | false => exact ⟨rfl, by simp [hn], rfl, (List.append_nil _).symm, by simp [hs, addSupport], rfl, rfl⟩

theorem grows_addAuxiliaries (h : f.addAuxiliaries count = .ok (xs, g)) :
    xs.length = count ∧ Grows f g xs [] := by
  induction count generalizing f xs with
  | zero =>
    cases h
    exact ⟨rfl, .refl _⟩
  | succ count ih =>
    obtain ⟨⟨v, k⟩, hv, hrest⟩ := bind_eq_ok.mp h
    obtain ⟨⟨vs, k'⟩, hvs, hg⟩ := bind_eq_ok.mp hrest
    cases hg
    obtain ⟨hlen, hgrows⟩ := ih hvs
    exact ⟨congrArg (· + 1) hlen, (grows_addVariable hv).trans hgrows⟩

theorem grows_addComment (f : Formula) (text : List Char) :
    Grows f (f.addComment text) [] [.comment text] :=
  ⟨rfl, rfl, rfl, Array.toList_push, by simp [addComment, addLine], rfl, rfl⟩

theorem addClause_eq_ok (clause : Clause) (h : f.clauseCount + 1 < 2 ^ 64) :
    f.addClause clause = .ok { f.addLine (.clause clause) with clauseCount := f.clauseCount + 1 } :=
  if_pos h

theorem grows_addClause {clause : Clause} (h : f.addClause clause = .ok g) :
    Grows f g [] [.clause clause] := by
  unfold addClause at h
  split at h
  · cases h
    exact ⟨rfl, rfl, rfl, Array.toList_push, by simp [addLine], rfl, rfl⟩
  · cases h

theorem grows_addClauses (h : f.addClauses clauses = .ok g) : Grows f g [] (clauses.map .clause) := by
  induction clauses generalizing f with
  | nil =>
    cases h
    exact .refl _
  | cons c cs ih =>
    obtain ⟨k, hc, hcs⟩ := bind_eq_ok.mp h
    exact (grows_addClause hc).trans (ih hcs)

theorem grows_addGuardedChain {guard : Literal} {literals : List Literal}
    (h : f.addGuardedChain guard literals count = .ok g) :
    ∃ chain, Chain.clauses literals count = .ok chain ∧
      Grows f g [] ((chain.map (guard :: ·)).map .clause) := by
  obtain ⟨chain, hchain, hadd⟩ := bind_eq_ok.mp h
  exact ⟨chain, hchain, grows_addClauses hadd⟩

end Operations
end Formula
end WeightedCnf

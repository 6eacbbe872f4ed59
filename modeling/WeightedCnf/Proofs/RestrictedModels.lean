import WeightedCnf.Proofs.Enumeration
import WeightedCnf.Proofs.Valuation

/-! The models that enumeration finds are the projected models: an assignment of the variables of a formula stands for
the valuation that makes all other variables false. -/
namespace WeightedCnf

noncomputable def Projection.chosen (p : Projection) : Finset Variable :=
  Finset.univ.filter fun v => p.contains v.index = true

theorem Projection.mem_chosen {p : Projection} {v : Variable} : v ∈ p.chosen ↔ p.contains v.index = true := by
  simp [chosen]

theorem Projection.mem_chosen_all {size : Nat} {v : Variable} : v ∈ (all size).chosen ↔ v.number ≤ size := by
  rw [mem_chosen, contains, all, Nat.one_shiftLeft, Nat.testBit_two_pow_sub_one, decide_eq_true_eq]
  exact Iff.rfl

namespace Assignment
variable {a b : Assignment} {p : Projection} {v : Variable}

/-- The valuation that agrees with an assignment and makes all other variables false. -/
def valuation (a : Assignment) : Valuation := a.var

def ofValuation (size : Nat) (m : Valuation) : Assignment :=
  ⟨(List.range size).map fun i => if h : i < Variable.limit then m ⟨i, h⟩ else false⟩

private theorem size_ofValuation (size : Nat) (m : Valuation) : (ofValuation size m).size = size := by
  rw [Assignment.size, ofValuation, List.length_map, List.length_range]

private theorem var_ofValuation {size : Nat} (m : Valuation) (hv : v.number ≤ size) :
    (ofValuation size m).var v = m v := by
  have hindex : (List.range size)[v.index]? = some v.index := List.getElem?_range hv
  rw [var, ofValuation, List.getD_eq_getElem?_getD, List.getElem?_map, hindex, Option.map_some, dif_pos v.index_lt]
  rfl

private theorem valuation_of_size_lt (hv : a.size < v.number) : a.valuation v = false := by
  have hnone : a.values[v.index]? = none := List.getElem?_eq_none (Nat.lt_succ_iff.mp hv)
  rw [valuation, var, List.getD_eq_getElem?_getD, hnone]
  rfl

private theorem valuation_ofValuation {size : Nat} {m : Valuation} (h : ∀ v, size < v.number → m v = false) :
    (ofValuation size m).valuation = m := by
  funext v
  rcases Nat.lt_or_ge size v.number with hv | hv
  · rw [h v hv, valuation_of_size_lt (by rwa [size_ofValuation])]
  · exact var_ofValuation m hv

private theorem eq_of_valuation_eq (ha : a.size ≤ Variable.limit) (hsize : a.size = b.size)
    (h : a.valuation = b.valuation) : a = b := by
  obtain ⟨xs⟩ := a
  obtain ⟨ys⟩ := b
  refine congrArg mk (List.ext_getElem hsize fun i hi hi' => ?_)
  have hvalue := congrFun h ⟨i, Nat.lt_of_lt_of_le hi ha⟩
  dsimp only [valuation, var] at hvalue
  rwa [List.getD_eq_getElem?_getD, List.getD_eq_getElem?_getD, List.getElem?_eq_getElem hi,
    List.getElem?_eq_getElem hi'] at hvalue

private theorem length_keep (values : List Bool) (marks : Nat) : (keep values marks).length = values.length := by
  induction values generalizing marks with
  | nil => rfl
  | cons value values ih => exact congrArg Nat.succ (ih (marks / 2))

private theorem getElem?_keep (values : List Bool) (marks i : Nat) :
    (keep values marks)[i]? = values[i]?.map (· && marks.testBit i) := by
  induction values generalizing marks i with
  | nil => rfl
  | cons value values ih =>
    cases i with
    | zero =>
      rw [keep, List.getElem?_cons_zero, List.getElem?_cons_zero, Option.map_some, Nat.testBit_zero, beq_eq_decide]
    | succ i =>
      rw [keep, List.getElem?_cons_succ, List.getElem?_cons_succ, ih, Nat.testBit_succ]

private theorem size_restrict (a : Assignment) (p : Projection) : (a.restrict p).size = a.size :=
  length_keep a.values p.marks

private theorem valuation_restrict (a : Assignment) (p : Projection) :
    (a.restrict p).valuation = a.valuation.restrict p.chosen := by
  funext v
  have hkeep : (a.restrict p).var v = (a.var v && p.contains v.index) := by
    rw [var, restrict, List.getD_eq_getElem?_getD, getElem?_keep, var, List.getD_eq_getElem?_getD]
    cases a.values[v.index]? <;> rfl
  by_cases hv : v ∈ p.chosen
  · rw [Valuation.restrict_of_mem hv, valuation, hkeep, Projection.mem_chosen.mp hv, Bool.and_true]
    rfl
  · have hnot : p.contains v.index = false := Bool.eq_false_iff.mpr (Projection.mem_chosen.not.mp hv)
    rw [Valuation.restrict_of_notMem hv, valuation, hkeep, hnot, Bool.and_false]

private theorem restrict_all (a : Assignment) : a.restrict (.all a.size) = a := by
  refine congrArg mk (List.ext_getElem? fun i => ?_)
  rw [getElem?_keep, Projection.all, Nat.one_shiftLeft]
  cases hi : a.values[i]? with
  | none => rfl
  | some value =>
    have hlt : i < a.size := (List.getElem?_eq_some_iff.mp hi).1
    rw [Option.map_some, Nat.testBit_two_pow_sub_one, decide_eq_true hlt, Bool.and_true]

end Assignment

private theorem mem_foldl_insert {α β : Type} [Ord β] [Std.TransOrd β] [Std.LawfulEqOrd β] {c : α → Bool} {g : α → β}
    {as : List α} {s : Std.TreeSet β} {b : β} :
    b ∈ as.foldl (fun s a => if c a then s.insert (g a) else s) s ↔ b ∈ s ∨ ∃ a ∈ as, c a = true ∧ g a = b := by
  induction as generalizing s with
  | nil => simp
  | cons a as ih =>
    rw [List.foldl_cons, ih]
    have hstep : b ∈ (if c a then s.insert (g a) else s) ↔ b ∈ s ∨ c a = true ∧ g a = b := by
      split
      · rename_i hc
        rw [Std.TreeSet.mem_insert, Std.LawfulEqCmp.compare_eq_iff_eq, or_comm, hc]
        simp
      · rename_i hc
        simp [hc]
    rw [hstep, List.exists_mem_cons_iff, or_assoc]

namespace Cnf
variable {cnf : Cnf} {p : Projection}

private theorem mem_restrictedModels {b : Assignment} : b ∈ cnf.restrictedModels p ↔
    ∃ a : Assignment, a.size = cnf.variableCount ∧ a.satisfies cnf.clauses = true ∧ a.restrict p = b := by
  rw [restrictedModels, Assignment.fold_eq, mem_foldl_insert]
  simp only [Std.TreeSet.not_mem_emptyc, false_or, Assignment.mem_all]

def restrictions (cnf : Cnf) (p : Projection) : Finset Assignment :=
  (cnf.restrictedModels p).toList.toFinset

private theorem mem_restrictions {b : Assignment} : b ∈ cnf.restrictions p ↔
    ∃ a : Assignment, a.size = cnf.variableCount ∧ a.satisfies cnf.clauses = true ∧ a.restrict p = b := by
  rw [restrictions, List.mem_toFinset, Std.TreeSet.mem_toList, mem_restrictedModels]

private theorem nodup_restrictedModels : (cnf.restrictedModels p).toList.Nodup :=
  Std.TreeSet.distinct_toList.imp fun h he => h (Std.LawfulEqCmp.compare_eq_iff_eq.mpr he)

theorem size_restrictedModels : (cnf.restrictedModels p).size = (cnf.restrictions p).card := by
  rw [restrictions, List.toFinset_card_of_nodup nodup_restrictedModels, Std.TreeSet.length_toList]

theorem foldl_restrictedModels (W : Assignment → ℚ) :
    (cnf.restrictedModels p).foldl (fun sum a => sum + W a) 0 = ∑ a ∈ cnf.restrictions p, W a := by
  rw [Std.TreeSet.foldl_eq_foldl_toList, restrictions, List.sum_toFinset _ nodup_restrictedModels, List.sum_eq_foldl,
    List.foldl_map]

/-- Without a projection each satisfying assignment is counted. -/
theorem modelCount_eq (cnf : Cnf) :
    cnf.modelCount = ((Assignment.all cnf.variableCount).filter (·.satisfies cnf.clauses)).length := by
  rw [modelCount, Assignment.fold_eq, ← List.countP_eq_length_filter]
  generalize Assignment.all cnf.variableCount = as
  have hcount (n : Nat) : as.foldl (fun n a => if a.satisfies cnf.clauses then n + 1 else n) n =
      n + as.countP (·.satisfies cnf.clauses) := by
    induction as generalizing n with
    | nil => rfl
    | cons a as ih =>
      rw [List.foldl_cons, ih, List.countP_cons]
      by_cases hsat : a.satisfies cnf.clauses = true
      · rw [if_pos hsat, if_pos hsat]
        omega
      · rw [if_neg hsat, if_neg hsat]
        rfl
  rw [hcount, Nat.zero_add]

/-- The satisfying assignments are the restrictions that leave nothing out. -/
theorem card_restrictions_all (cnf : Cnf) : (cnf.restrictions (.all cnf.variableCount)).card = cnf.modelCount := by
  have hsame : cnf.restrictions (.all cnf.variableCount) =
      ((Assignment.all cnf.variableCount).filter (·.satisfies cnf.clauses)).toFinset := by
    ext b
    rw [mem_restrictions, List.mem_toFinset, List.mem_filter, Assignment.mem_all]
    constructor
    · rintro ⟨a, ha, hsat, rfl⟩
      rw [← ha, Assignment.restrict_all]
      exact ⟨rfl, hsat⟩
    · rintro ⟨hb, hsat⟩
      exact ⟨b, hb, hsat, hb ▸ b.restrict_all⟩
  rw [hsame, modelCount_eq, List.toFinset_card_of_nodup ((Assignment.nodup_all _).filter _)]

/-- The satisfying assignments, as valuations that make no variable beyond the last one true. -/
noncomputable def satisfying (cnf : Cnf) : Finset Valuation :=
  Finset.univ.filter fun a => (∀ v, cnf.variableCount < v.number → a v = false) ∧ a.satisfies cnf.clauses = true

private theorem mem_satisfying {m : Valuation} : m ∈ cnf.satisfying ↔
    (∀ v, cnf.variableCount < v.number → m v = false) ∧ m.satisfies cnf.clauses = true := by
  rw [satisfying, Finset.mem_filter, and_iff_right (Finset.mem_univ m)]

/-- The restricted models stand for the restrictions of the satisfying assignments. -/
private theorem image_restrictions (cnf : Cnf) (p : Projection) :
    (cnf.restrictions p).image Assignment.valuation = cnf.satisfying.image (·.restrict p.chosen) := by
  ext m
  rw [Finset.mem_image, Finset.mem_image]
  constructor
  · rintro ⟨_, hb, rfl⟩
    obtain ⟨a, ha, hsat, rfl⟩ := mem_restrictions.mp hb
    refine ⟨a.valuation, mem_satisfying.mpr ⟨fun v hv => ?_, hsat⟩, (a.valuation_restrict p).symm⟩
    exact Assignment.valuation_of_size_lt (ha ▸ hv)
  · rintro ⟨m, hm, rfl⟩
    obtain ⟨hbeyond, hsat⟩ := mem_satisfying.mp hm
    have hsame := Assignment.valuation_ofValuation hbeyond
    refine ⟨(Assignment.ofValuation cnf.variableCount m).restrict p, mem_restrictions.mpr ⟨_, ?_, ?_, rfl⟩, ?_⟩
    · exact Assignment.size_ofValuation _ m
    · rw [← hsame] at hsat
      exact hsat
    · rw [Assignment.valuation_restrict, hsame]

/-- If the clauses are over the first variables, then the values of the others do not matter for what is projected on the
first variables. -/
theorem models_eq_image {s : Finset Variable} (hover : OnlyOver (·.number ≤ cnf.variableCount) cnf.clauses)
    (hs : ∀ v ∈ s, v.number ≤ cnf.variableCount) : cnf.models s = cnf.satisfying.image (·.restrict s) := by
  ext m
  rw [models, mem_projectedModels, Finset.mem_image]
  constructor
  · rintro ⟨a, hsat, rfl⟩
    have hagree : ∀ v : Variable, v.number ≤ cnf.variableCount →
        a.restrict (Finset.univ.filter (·.number ≤ cnf.variableCount)) v = a v := fun v hv =>
      Valuation.restrict_of_mem (Finset.mem_filter.mpr ⟨Finset.mem_univ v, hv⟩)
    refine ⟨_, mem_satisfying.mpr ⟨fun v hv => ?_, ?_⟩, Valuation.restrict_congr fun v hv => hagree v (hs v hv)⟩
    · exact Valuation.restrict_of_notMem fun hmem => absurd (Finset.mem_filter.mp hmem).2 (Nat.not_le.mpr hv)
    · rwa [Valuation.satisfies_congr (hover.mono hagree)]
  · rintro ⟨a, ha, rfl⟩
    exact ⟨a, (mem_satisfying.mp ha).2, rfl⟩

section Models
variable (hlimit : cnf.variableCount ≤ Variable.limit)
include hlimit

private theorem injOn_valuation : Set.InjOn Assignment.valuation (cnf.restrictions p) := by
  have hsize {b : Assignment} (hb : b ∈ cnf.restrictions p) : b.size = cnf.variableCount := by
    obtain ⟨a, ha, -, rfl⟩ := mem_restrictions.mp hb
    rw [Assignment.size_restrict, ha]
  intro a ha b hb h
  have ha := hsize (Finset.mem_coe.mp ha)
  have hb := hsize (Finset.mem_coe.mp hb)
  exact Assignment.eq_of_valuation_eq (ha ▸ hlimit) (ha.trans hb.symm) h

theorem card_restrictions (p : Projection) :
    (cnf.restrictions p).card = (cnf.satisfying.image (·.restrict p.chosen)).card := by
  rw [← image_restrictions, Finset.card_image_of_injOn (injOn_valuation hlimit)]

theorem sum_restrictions (p : Projection) (W : Valuation → ℚ) :
    ∑ a ∈ cnf.restrictions p, W a.valuation = ∑ m ∈ cnf.satisfying.image (·.restrict p.chosen), W m := by
  rw [← image_restrictions, Finset.sum_image (injOn_valuation hlimit)]

/-- Without a projection the satisfying assignments are counted. -/
theorem modelCount_eq_card : cnf.modelCount = cnf.satisfying.card := by
  have hsame : ∀ m ∈ cnf.satisfying, m.restrict (Projection.all cnf.variableCount).chosen = m := by
    intro m hm
    funext v
    rcases Nat.lt_or_ge cnf.variableCount v.number with hv | hv
    · rw [(mem_satisfying.mp hm).1 v hv]
      exact Valuation.restrict_of_notMem fun hmem => absurd (Projection.mem_chosen_all.mp hmem) (Nat.not_le.mpr hv)
    · exact Valuation.restrict_of_mem (Projection.mem_chosen_all.mpr hv)
  rw [← card_restrictions_all, card_restrictions hlimit, Finset.image_congr hsame, Finset.image_id']

end Models

end Cnf
end WeightedCnf

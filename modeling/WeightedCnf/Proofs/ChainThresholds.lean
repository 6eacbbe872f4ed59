import Mathlib.Order.Interval.Finset.Nat
import WeightedCnf.Proofs.ChainModels

/-! Chains as threshold constraints on the number that their literals spell, and how many models these
have. -/
namespace WeightedCnf
open WeightedCnf.Valuation

/-- The clauses hold exactly for the largest numbers that the literals can stand for, `count` of them. -/
structure Threshold (ls : List Literal) (count : Nat) (cs : List Clause) : Prop where
  onlyOver : OnlyOver (· ∈ ls.map Literal.var) cs
  satisfies : ∀ a : Valuation, a.satisfies cs ↔ 2 ^ ls.length ≤ a.number ls + count
  count_le : count ≤ 2 ^ ls.length

theorem Chain.threshold {ls : List Literal} {count : Nat} {cs : List Clause}
    (h : Chain.clauses ls count = .ok cs) : Threshold ls count cs where
  onlyOver := onlyOver_clauses h fun _ hl => List.mem_map_of_mem hl
  satisfies _ := satisfies_clauses h
  count_le := count_le h

namespace Threshold

/-- The empty clause never holds. -/
theorem zero (ls : List Literal) : Threshold ls 0 [[]] where
  onlyOver c hc l hl := by
    rw [List.mem_singleton.mp hc] at hl
    exact nomatch hl
  satisfies a := by
    have := a.number_lt ls
    simp [Valuation.satisfies]
    omega
  count_le := Nat.zero_le _

/-- No clauses always hold. -/
theorem full (ls : List Literal) : Threshold ls (2 ^ ls.length) [] where
  onlyOver _ hc := nomatch hc
  satisfies a := by simp [Valuation.satisfies]
  count_le := le_rfl

variable {ls : List Literal} {xs : List Variable} {count : Nat} {cs : List Clause}

/-- Thresholds have as many models as they say. -/
theorem card_models (h : Threshold ls count cs) (hls : ls.map Literal.var = xs) (hd : xs.Nodup) :
    (Finset.univ.filter fun t : Valuation => t.restrict xs.toFinset = t ∧ t.satisfies cs).card = count := by
  subst hls
  simp only [h.satisfies]
  rw [card_filter_number hd fun k => 2 ^ ls.length ≤ k + count]
  have hIco : (Finset.range (2 ^ ls.length)).filter (fun k => 2 ^ ls.length ≤ k + count) =
      Finset.Ico (2 ^ ls.length - count) (2 ^ ls.length) := by
    ext k
    rw [Finset.mem_filter, Finset.mem_range, Finset.mem_Ico]
    omega
  have := h.count_le
  rw [hIco, Nat.card_Ico]
  omega

/-- The projected models are the models without values of other variables. -/
theorem projectedModels_eq (h : Threshold ls count cs) (hls : ls.map Literal.var = xs) :
    projectedModels cs xs.toFinset =
      Finset.univ.filter fun t : Valuation => t.restrict xs.toFinset = t ∧ t.satisfies cs := by
  ext m
  rw [mem_projectedModels, Finset.mem_filter]
  constructor
  · rintro ⟨a, ha, rfl⟩
    have hagree : OnlyOver (fun v => a.restrict xs.toFinset v = a v) cs :=
      h.onlyOver.mono fun v hv => restrict_of_mem (List.mem_toFinset.mpr (hls ▸ hv))
    exact ⟨Finset.mem_univ _, restrict_restrict subset_rfl, (satisfies_congr hagree).trans ha⟩
  · rintro ⟨-, hm, hsat⟩
    exact ⟨m, hsat, hm⟩

end Threshold

/-- Over distinct variables a chain can be built for every number of models there can be. It has no
other variables and holds for the largest numbers that its literals spell, the lowest digit first. -/
theorem Chain.clauses_threshold {ls : List Literal} {count : Nat} (hd : (ls.map Literal.var).Nodup)
    (hcount : count ≤ 2 ^ ls.length) (hne : ¬ (count = 0 ∧ ls = [])) :
    ∃ cs, Chain.clauses ls count = .ok cs ∧
      OnlyOver (· ∈ ls.map Literal.var) cs ∧
      (∀ a : Valuation, ∃ n < 2 ^ ls.length, (∀ i, (h : i < ls.length) → n.testBit i = a.literal ls[i]) ∧
        (a.satisfies cs ↔ 2 ^ ls.length - count ≤ n)) ∧
      (projectedModels cs (ls.map Literal.var).toFinset).card = count := by
  obtain ⟨cs, hcs⟩ := clauses_ok hcount fun hzero hnil => hne ⟨hzero, hnil⟩
  have hthreshold := threshold hcs
  refine ⟨cs, hcs, hthreshold.onlyOver, fun a => ?_, ?_⟩
  · refine ⟨a.number ls, a.number_lt ls, fun i hi => a.testBit_number ls hi, ?_⟩
    rw [hthreshold.satisfies, Nat.sub_le_iff_le_add]
  · rw [hthreshold.projectedModels_eq rfl, hthreshold.card_models rfl hd]

def Chain.threeDigits : List Literal :=
  [⟨⟨3, by decide⟩, true⟩, ⟨⟨4, by decide⟩, false⟩, ⟨⟨5, by decide⟩, true⟩]

/-- Five of the eight numbers that three digits spell. -/
theorem Chain.clauses_threshold_five :
    (threeDigits.map Literal.var).Nodup ∧ 5 ≤ 2 ^ threeDigits.length ∧ ¬ (5 = 0 ∧ threeDigits = []) ∧
      ∃ cs, clauses threeDigits 5 = .ok cs ∧
        OnlyOver (· ∈ threeDigits.map Literal.var) cs ∧
        (∀ a : Valuation, ∃ n < 2 ^ threeDigits.length,
          (∀ i, (h : i < threeDigits.length) → n.testBit i = a.literal threeDigits[i]) ∧
          (a.satisfies cs ↔ 2 ^ threeDigits.length - 5 ≤ n)) ∧
        (projectedModels cs (threeDigits.map Literal.var).toFinset).card = 5 :=
  have hd : (threeDigits.map Literal.var).Nodup := by decide
  have hcount : 5 ≤ 2 ^ threeDigits.length := by decide
  have hne : ¬ (5 = 0 ∧ threeDigits = []) := by decide
  ⟨hd, hcount, hne, clauses_threshold hd hcount hne⟩

end WeightedCnf

import WeightedCnf.Proofs.ModelCounts

/-! Enumeration computes what the counts are defined to be, in terms of the satisfying assignments alone: how many
restrictions they have, and what the weights of these restrictions add up to. -/
namespace WeightedCnf

namespace Cnf
variable {cnf : Cnf}

private theorem count_none (hsmall : cnf.variableCount ≤ Count.maxVariables) :
    cnf.count none = .ok cnf.satisfying.card := by
  have hlimit : cnf.variableCount ≤ Variable.limit := hsmall.trans (by decide)
  rw [count_eq_ok rfl, Option.getD_none, card_restrictions_all, modelCount_eq_card hlimit]
  exact ⟨hsmall, rfl⟩

private theorem count_some (hsmall : cnf.variableCount ≤ Count.maxVariables) {p : Projection}
    (hsize : p.size = cnf.variableCount) :
    cnf.count (some p) = .ok (cnf.satisfying.image (·.restrict p.chosen)).card := by
  have hlimit : cnf.variableCount ≤ Variable.limit := hsmall.trans (by decide)
  exact (@count_eq_ok cnf (some p) _ hsize).mpr ⟨hsmall, card_restrictions hlimit p⟩

end Cnf

namespace Formula
variable {f : Formula} {cnf : Cnf}

private theorem isWeighed_iff : f.IsWeighed ↔ ∀ v ∈ f.free, ∀ b, (f.weight ⟨v, b⟩).denom ≠ 0 := by
  refine forall₂_congr fun v _ => ?_
  rw [Bool.forall_bool, and_comm, Weight.isValid, Weight.isValid, bne_iff_ne, bne_iff_ne]
  rfl

private theorem weightedSum_eq (hr : f.SupportInRange) (hcnf : f.toCnf = .ok cnf) : f.weightedSum cnf =
    ∑ m ∈ cnf.satisfying.image (·.restrict f.free), ∏ v ∈ f.free, (f.weight ⟨v, m v⟩).rat := by
  obtain ⟨-, -, hover, -, hvariables⟩ := toCnf_eq_ok_iff.mp hcnf
  rw [← hvariables] at hover
  have hfree : ∀ v ∈ f.free, v.number ≤ cnf.variableCount := fun v hv => hvariables ▸ hr.number_le hv
  rw [weightedSum, Cnf.models_eq_image hover hfree]

private theorem weightedCount_of_isWeighed (hr : f.SupportInRange) (hcnf : f.toCnf = .ok cnf)
    (hsmall : f.variableCount ≤ Count.maxVariables) (hweighed : f.IsWeighed) : f.weightedCount =
      .ok (∑ m ∈ cnf.satisfying.image (·.restrict f.free), ∏ v ∈ f.free, (f.weight ⟨v, m v⟩).rat) :=
  (weightedCount_eq_ok hr).mpr ⟨hsmall, hweighed, cnf, hcnf, weightedSum_eq hr hcnf⟩

/-- The weighted count of a small formula is refused exactly if one of the weights that matter has a zero denominator. -/
theorem weightedCount_error_iff (hr : f.SupportInRange) (hcnf : f.toCnf = .ok cnf)
    (hsmall : f.variableCount ≤ Count.maxVariables) :
    (∃ stop, f.weightedCount = .error stop) ↔ ∃ v ∈ f.free, ∃ b, (f.weight ⟨v, b⟩).denom = 0 := by
  constructor
  · rintro ⟨stop, h⟩
    obtain ⟨v, hv, ⟨b, hb⟩, -⟩ := exists_of_weightedCount_error hr hcnf hsmall h
    exact ⟨v, hv, b, Weight.isValid_eq_false_iff.mp hb⟩
  · rintro ⟨v, hv, b, hb⟩
    cases hcount : f.weightedCount with
    | error stop => exact ⟨stop, rfl⟩
    | ok w =>
      obtain ⟨-, hweighed, -⟩ := (weightedCount_eq_ok hr).mp hcount
      exact absurd hb (isWeighed_iff.mp hweighed v hv b)

end Formula

/-- Both counts are what they are meant to be. A satisfying assignment makes no variable beyond the last one true, so the
restrictions that are counted are distinct assignments of the chosen variables. -/
theorem counts_are_exact :
    (∀ cnf : Cnf, cnf.variableCount ≤ Count.maxVariables → cnf.count none = .ok cnf.satisfying.card ∧
      ∀ p : Projection, p.size = cnf.variableCount →
        cnf.count (some p) = .ok (cnf.satisfying.image (·.restrict p.chosen)).card) ∧
    ∀ (f : Formula) (cnf : Cnf), f.toCnf = .ok cnf → f.variableCount ≤ Count.maxVariables → f.SupportInRange →
      ((∃ stop, f.weightedCount = .error stop) ↔ ∃ v ∈ f.free, ∃ b, (f.weight ⟨v, b⟩).denom = 0) ∧
      (∀ stop, f.weightedCount = .error stop →
        ∃ v ∈ f.free, (∃ b, (f.weight ⟨v, b⟩).denom = 0) ∧ stop = .error (.invalidWeight v)) ∧
      ((∀ v ∈ f.free, ∀ b, (f.weight ⟨v, b⟩).denom ≠ 0) → f.weightedCount =
        .ok (∑ m ∈ cnf.satisfying.image (·.restrict f.free), ∏ v ∈ f.free, (f.weight ⟨v, m v⟩).rat)) := by
  refine ⟨fun cnf hsmall => ⟨Cnf.count_none hsmall, fun p => Cnf.count_some hsmall⟩, ?_⟩
  intro f cnf hcnf hsmall hr
  refine ⟨Formula.weightedCount_error_iff hr hcnf hsmall, fun stop h => ?_, fun hweighed => ?_⟩
  · obtain ⟨v, hv, ⟨b, hb⟩, hstop⟩ := Formula.exists_of_weightedCount_error hr hcnf hsmall h
    exact ⟨v, hv, ⟨b, Weight.isValid_eq_false_iff.mp hb⟩, hstop⟩
  · exact Formula.weightedCount_of_isWeighed hr hcnf hsmall (Formula.isWeighed_iff.mpr hweighed)

theorem counts_are_exact_thirds : ∃ cnf, Formula.thirds.toCnf = .ok cnf ∧
    cnf.count none = .ok cnf.satisfying.card ∧
    cnf.count (some ⟨2, 1⟩) = .ok (cnf.satisfying.image (·.restrict (Projection.mk 2 1).chosen)).card ∧
    Formula.thirds.weightedCount = .ok (∑ m ∈ cnf.satisfying.image (·.restrict Formula.thirds.free),
      ∏ v ∈ Formula.thirds.free, (Formula.thirds.weight ⟨v, m v⟩).rat) := by
  refine ⟨⟨2, [[⟨.one, true⟩, ⟨⟨1, by decide⟩, true⟩]]⟩, rfl, ?_, ?_, ?_⟩
  · exact (counts_are_exact.1 _ (by decide)).1
  · exact (counts_are_exact.1 _ (by decide)).2 _ rfl
  · refine (counts_are_exact.2 _ _ rfl (by decide) (by decide)).2.2 fun v hv b => ?_
    have hmem : v ∈ Formula.thirds.support.toList := Formula.mem_free.mp hv
    cases List.mem_singleton.mp hmem
    cases b <;> decide +kernel

end WeightedCnf

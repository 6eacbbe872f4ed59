import WeightedCnf.Proofs.ExactReduction
import WeightedCnf.Proofs.ParsedFormulas
import WeightedCnf.Proofs.RestrictedModels

/-! The counts by enumeration are those that they are meant to be: the number of the projected models, and the sum of
their weights. They are given for small formulas that tell the truth about their bodies and whose weights are valid, and
for no others. -/
namespace WeightedCnf

namespace Projection
variable {p : Projection} {v : Variable} {i : Nat}

def chosenAt? (p : Projection) (i : Nat) : Option Variable :=
  if h : i < Variable.limit then if p.contains i then some ⟨i, h⟩ else Option.none else Option.none

private theorem chosenAt?_eq_some : p.chosenAt? i = some v ↔ v.index = i ∧ p.contains i = true := by
  unfold chosenAt?
  split
  · split
    · rename_i h hcontains
      constructor
      · intro he
        cases he
        exact ⟨rfl, hcontains⟩
      · rintro ⟨rfl, -⟩
        rfl
    · rename_i hcontains
      exact ⟨(nomatch ·), fun he => absurd he.2 hcontains⟩
  · rename_i h
    exact ⟨(nomatch ·), fun he => absurd (he.1 ▸ v.index_lt) h⟩

def listed (p : Projection) : List Variable :=
  (List.range p.size).filterMap p.chosenAt?

private theorem mem_listed : v ∈ p.listed ↔ v.index < p.size ∧ p.contains v.index = true := by
  rw [listed, List.mem_filterMap]
  constructor
  · rintro ⟨i, hi, h⟩
    obtain ⟨rfl, hcontains⟩ := chosenAt?_eq_some.mp h
    exact ⟨List.mem_range.mp hi, hcontains⟩
  · rintro ⟨hsize, hcontains⟩
    exact ⟨v.index, List.mem_range.mpr hsize, chosenAt?_eq_some.mpr ⟨rfl, hcontains⟩⟩

private theorem nodup_listed : p.listed.Nodup := by
  refine List.Nodup.filterMap (fun i j v hi hj => ?_) List.nodup_range
  rw [← (chosenAt?_eq_some.mp hi).1, ← (chosenAt?_eq_some.mp hj).1]

private theorem toFinset_listed (hchosen : ∀ v ∈ p.chosen, v.number ≤ p.size) : p.listed.toFinset = p.chosen := by
  ext v
  rw [List.mem_toFinset, mem_listed, mem_chosen]
  exact ⟨And.right, fun h => ⟨hchosen v (mem_chosen.mpr h), h⟩⟩

end Projection

/-- A count is given unless there are too many variables. -/
theorem Cnf.count_eq_ok {cnf : Cnf} {projection : Option Projection} {n : Nat}
    (hsize : (projection.getD (.all cnf.variableCount)).size = cnf.variableCount) : cnf.count projection = .ok n ↔
      cnf.variableCount ≤ Count.maxVariables ∧ (cnf.restrictions (projection.getD (.all cnf.variableCount))).card = n := by
  unfold count
  by_cases hlarge : Count.maxVariables < cnf.variableCount
  · rw [if_pos hlarge]
    exact ⟨(nomatch ·), fun h => absurd hlarge (Nat.not_lt.mpr h.1)⟩
  · rw [if_neg hlarge]
    cases projection with
    | none =>
      change Except.ok cnf.modelCount = _ ↔ _
      rw [Except.ok.injEq, ← card_restrictions_all]
      exact ⟨fun h => ⟨Nat.not_lt.mp hlarge, h⟩, And.right⟩
    | some p =>
      have hsize : ¬ p.size ≠ cnf.variableCount := not_not_intro hsize
      dsimp only
      rw [if_neg hsize]
      change Except.ok (cnf.restrictedModels p).size = _ ↔ _
      rw [Except.ok.injEq, size_restrictedModels]
      exact ⟨fun h => ⟨Nat.not_lt.mp hlarge, h⟩, And.right⟩

namespace Formula
variable {f : Formula} {cnf : Cnf} {p : Projection}

/-- The projection of a formula chooses the variables that matter. -/
theorem exists_projection (hr : f.SupportInRange) : ∃ projection, f.projection? = .ok projection ∧
    (projection.getD (.all f.variableCount)).size = f.variableCount ∧
    (projection.getD (.all f.variableCount)).chosen = f.free := by
  unfold projection?
  by_cases hempty : f.support.isEmpty = true
  · rw [if_pos hempty]
    refine ⟨none, rfl, rfl, ?_⟩
    ext v
    rw [mem_free, if_pos hempty]
    exact Projection.mem_chosen_all
  · rw [if_neg hempty]
    obtain ⟨q, hq, hsize, hcontains⟩ := Projection.exists_ofList hr
    refine ⟨some q, by rw [hq]; rfl, hsize, ?_⟩
    ext v
    rw [Option.getD_some, Projection.mem_chosen, hcontains, mem_free, if_neg hempty]
    constructor
    · rintro ⟨u, hu, hindex⟩
      exact Variable.number_injective (congrArg (· + 1) hindex) ▸ hu
    · exact fun hv => ⟨v, hv, rfl⟩

private theorem exists_restrictions (hr : f.SupportInRange) (hcnf : f.toCnf = .ok cnf) : ∃ projection p,
    f.projection? = .ok projection ∧ projection.getD (.all cnf.variableCount) = p ∧ p.size = cnf.variableCount ∧
      p.listed.toFinset = f.free ∧ (cnf.restrictions p).card = (cnf.models f.free).card ∧
      ∀ W : Valuation → ℚ, ∑ a ∈ cnf.restrictions p, W a.valuation = ∑ m ∈ cnf.models f.free, W m := by
  obtain ⟨hlimit, -, hover, -, hvariables⟩ := toCnf_eq_ok_iff.mp hcnf
  obtain ⟨projection, hprojection, hsize, hchosen⟩ := exists_projection hr
  rw [← hvariables] at hlimit hover hsize hchosen
  generalize hp : projection.getD (.all cnf.variableCount) = p at hsize hchosen
  have hrange : ∀ v ∈ p.chosen, v.number ≤ cnf.variableCount := by
    intro v hv
    rw [hchosen] at hv
    exact hvariables ▸ hr.number_le hv
  refine ⟨projection, p, hprojection, hp, hsize, ?_, ?_, fun W => ?_⟩
  · rw [Projection.toFinset_listed (hsize ▸ hrange), hchosen]
  · rw [Cnf.card_restrictions hlimit, ← Cnf.models_eq_image hover hrange, hchosen]
  · rw [Cnf.sum_restrictions hlimit, ← Cnf.models_eq_image hover hrange, hchosen]

/-- A count of models is given for a small formula that can be read, and it is the number of the projected models. -/
theorem count_eq_ok (hr : f.SupportInRange) {n : Nat} : f.count = .ok n ↔
    f.variableCount ≤ Count.maxVariables ∧ ∃ cnf, f.toCnf = .ok cnf ∧ (cnf.models f.free).card = n := by
  have hcount {cnf : Cnf} (hcnf : f.toCnf = .ok cnf) : f.count = .ok n ↔
      f.variableCount ≤ Count.maxVariables ∧ (cnf.models f.free).card = n := by
    obtain ⟨projection, p, hprojection, rfl, hsize, -, hcard, -⟩ := exists_restrictions hr hcnf
    obtain ⟨-, -, -, -, hvariables⟩ := toCnf_eq_ok_iff.mp hcnf
    rw [← hcard, ← hvariables, ← Cnf.count_eq_ok hsize]
    unfold count
    rw [hcnf, hprojection]
    exact mapError_eq_ok
  constructor
  · intro h
    obtain ⟨cnf, hcnf, -⟩ := bind_eq_ok.mp h
    have hcnf := mapError_eq_ok.mp (mapError_eq_ok.mp hcnf)
    obtain ⟨hsmall, hcard⟩ := (hcount hcnf).mp h
    exact ⟨hsmall, cnf, hcnf, hcard⟩
  · rintro ⟨hsmall, cnf, hcnf, hcard⟩
    exact (hcount hcnf).mpr ⟨hsmall, hcard⟩

/-- Both weights of the variables that matter are fractions. -/
def IsWeighed (f : Formula) : Prop :=
  ∀ v ∈ f.free, (f.weight v.positive).isValid = true ∧ (f.weight v.negative).isValid = true

def weighed (f : Formula) (v : Variable) : Variable × ℚ × ℚ :=
  (v, (f.weight v.positive).rat, (f.weight v.negative).rat)

private theorem exactWeight_eq_ok {l : Literal} {q : ℚ} :
    f.exactWeight l = .ok q ↔ (f.weight l).isValid = true ∧ (f.weight l).rat = q := by
  rw [← Weight.toRat?_eq_some, exactWeight]
  cases (f.weight l).toRat? with
  | none => exact ⟨(nomatch ·), (nomatch ·)⟩
  | some r => exact ⟨fun h => congrArg some (Except.ok.inj h), fun h => congrArg Except.ok (Option.some.inj h)⟩

private theorem exactWeight_eq_error {l : Literal} {e : CountError} :
    f.exactWeight l = .error e ↔ (f.weight l).isValid = false ∧ .invalidWeight l.var = e := by
  rw [exactWeight, Weight.toRat?]
  cases (f.weight l).isValid with
  | true =>
    constructor
    · intro h
      cases h
    · rintro ⟨h, -⟩
      cases h
  | false => exact ⟨fun h => ⟨rfl, Except.error.inj h⟩, fun h => congrArg Except.error h.2⟩

private theorem exactWeights_eq (f : Formula) (p : Projection) : f.exactWeights p =
    (List.range p.size).filterMapM fun i => match p.chosenAt? i with
      | none => pure none
      | some v => do return some (v, ← f.exactWeight v.positive, ← f.exactWeight v.negative) := by
  refine congrArg (List.filterMapM · (List.range p.size)) (funext fun i => ?_)
  unfold Projection.chosenAt?
  by_cases hi : i < Variable.limit
  · rw [dif_pos hi, dif_pos hi]
    by_cases hcontains : p.contains i = true
    · rw [if_pos hcontains, if_pos hcontains]
    · rw [if_neg hcontains, if_neg hcontains]
  · rw [dif_neg hi, dif_neg hi]

private theorem exactWeights_eq_ok {ws : List (Variable × ℚ × ℚ)} : f.exactWeights p = .ok ws ↔
    (∀ v ∈ p.listed, (f.weight v.positive).isValid = true ∧ (f.weight v.negative).isValid = true) ∧
      p.listed.map f.weighed = ws := by
  rw [exactWeights_eq, Projection.listed]
  generalize List.range p.size = indices
  induction indices generalizing ws with
  | nil => exact ⟨fun h => ⟨List.forall_mem_nil _, Except.ok.inj h⟩, fun h => congrArg Except.ok h.2⟩
  | cons i indices ih =>
    rw [List.filterMapM_cons]
    cases hi : p.chosenAt? i with
    | none => rw [List.filterMap_cons_none hi, pure_bind, ih]
    | some v =>
      rw [List.filterMap_cons_some hi, List.map_cons, List.forall_mem_cons]
      simp only [bind_assoc, pure_bind, bind_eq_ok, exactWeight_eq_ok, ih]
      constructor
      · rintro ⟨_, ⟨hpositive, rfl⟩, _, ⟨hnegative, rfl⟩, _, ⟨hvalid, rfl⟩, h⟩
        exact ⟨⟨⟨hpositive, hnegative⟩, hvalid⟩, Except.ok.inj h⟩
      · rintro ⟨⟨⟨hpositive, hnegative⟩, hvalid⟩, rfl⟩
        exact ⟨_, ⟨hpositive, rfl⟩, _, ⟨hnegative, rfl⟩, _, ⟨hvalid, rfl⟩, rfl⟩

private theorem exists_of_exactWeights_error {e : CountError} (h : f.exactWeights p = .error e) :
    ∃ v ∈ p.listed, (∃ b, (f.weight ⟨v, b⟩).isValid = false) ∧ e = .invalidWeight v := by
  rw [exactWeights_eq] at h
  rw [Projection.listed]
  generalize List.range p.size = indices at h ⊢
  induction indices with
  | nil => cases h
  | cons i indices ih =>
    rw [List.filterMapM_cons] at h
    cases hi : p.chosenAt? i with
    | none =>
      rw [hi, pure_bind] at h
      rw [List.filterMap_cons_none hi]
      exact ih h
    | some v =>
      rw [hi] at h
      rw [List.filterMap_cons_some hi, List.exists_mem_cons_iff]
      simp only [bind_assoc, pure_bind, bind_eq_error, exactWeight_eq_error] at h
      rcases h with ⟨hpositive, rfl⟩ | ⟨_, -, ⟨hnegative, rfl⟩ | ⟨_, -, hrest | ⟨_, -, hread⟩⟩⟩
      · exact .inl ⟨⟨true, hpositive⟩, rfl⟩
      · exact .inl ⟨⟨false, hnegative⟩, rfl⟩
      · exact .inr (ih hrest)
      · cases hread

private theorem product_weighed {vs : List Variable} (hvs : vs.Nodup) (a : Assignment) :
    a.product (vs.map f.weighed) = ∏ v ∈ vs.toFinset, (f.weight ⟨v, a.valuation v⟩).rat := by
  rw [List.prod_toFinset _ hvs, List.prod_eq_foldl, List.foldl_map, Assignment.product, List.foldl_map]
  have hfactor (v : Variable) : (if a.var v then (f.weight v.positive).rat else (f.weight v.negative).rat) =
      (f.weight ⟨v, a.valuation v⟩).rat := by
    unfold Assignment.valuation
    cases a.var v <;> rfl
  exact congrArg (List.foldl · 1 vs) (funext₂ fun product v => congrArg (product * ·) (hfactor v))

/-- The weighted count of a small formula that can be read is the sum of the weights of the projected models, once the
weights of the variables that matter are known. -/
private theorem weightedCount_of_small (hr : f.SupportInRange) (hcnf : f.toCnf = .ok cnf)
    (hsmall : f.variableCount ≤ Count.maxVariables) : ∃ p : Projection, p.listed.toFinset = f.free ∧
      f.weightedCount = ((f.exactWeights p).map fun _ => f.weightedSum cnf).mapError .error := by
  obtain ⟨projection, p, hprojection, hp, -, hfree, -, hsum⟩ := exists_restrictions hr hcnf
  obtain ⟨-, -, -, -, hvariables⟩ := toCnf_eq_ok_iff.mp hcnf
  have hsum : (cnf.restrictedModels p).foldl (fun sum a => sum + a.product (p.listed.map f.weighed)) 0 =
      f.weightedSum cnf := by
    rw [Cnf.foldl_restrictedModels, weightedSum, ← hsum, ← hfree]
    exact Finset.sum_congr rfl fun a _ => product_weighed Projection.nodup_listed a
  have hread : Attempt.ofError (f.toCnf.mapError CountError.unreadable) = .ok cnf := by
    rw [hcnf]
    rfl
  have hchosen : (Attempt.ofFault f.projection? : Attempt CountError _) = .ok projection := by
    rw [hprojection]
    rfl
  refine ⟨p, hfree, ?_⟩
  unfold weightedCount
  rw [hread, ok_bind, if_neg (hvariables ▸ Nat.not_lt.mpr hsmall), hchosen, ok_bind, hp]
  dsimp only
  cases hws : f.exactWeights p with
  | error e => rfl
  | ok ws =>
    obtain ⟨-, rfl⟩ := exactWeights_eq_ok.mp hws
    exact congrArg Except.ok hsum

/-- A weighted count is given for a small formula that can be read and whose weights are fractions, and it is the sum of
the weights of the projected models. -/
theorem weightedCount_eq_ok (hr : f.SupportInRange) {w : ℚ} : f.weightedCount = .ok w ↔
    f.variableCount ≤ Count.maxVariables ∧ f.IsWeighed ∧ ∃ cnf, f.toCnf = .ok cnf ∧ f.weightedSum cnf = w := by
  have hcount {cnf : Cnf} (hcnf : f.toCnf = .ok cnf) (hsmall : f.variableCount ≤ Count.maxVariables) :
      f.weightedCount = .ok w ↔ f.IsWeighed ∧ f.weightedSum cnf = w := by
    obtain ⟨p, hfree, hcount⟩ := weightedCount_of_small hr hcnf hsmall
    have hweighed : f.IsWeighed ↔
        ∀ v ∈ p.listed, (f.weight v.positive).isValid = true ∧ (f.weight v.negative).isValid = true := by
      simp only [IsWeighed, ← hfree, List.mem_toFinset]
    rw [hcount, mapError_eq_ok, hweighed]
    cases hws : f.exactWeights p with
    | error e => exact ⟨(nomatch ·), fun h => nomatch hws.symm.trans (exactWeights_eq_ok.mpr ⟨h.1, rfl⟩)⟩
    | ok ws => exact ⟨fun h => ⟨(exactWeights_eq_ok.mp hws).1, Except.ok.inj h⟩, fun h => congrArg Except.ok h.2⟩
  constructor
  · intro h
    obtain ⟨cnf, hcnf, hrest⟩ := bind_eq_ok.mp h
    have hcnf := mapError_eq_ok.mp (mapError_eq_ok.mp hcnf)
    obtain ⟨-, -, -, -, hvariables⟩ := toCnf_eq_ok_iff.mp hcnf
    have hsmall : f.variableCount ≤ Count.maxVariables := by
      by_contra hlarge
      rw [if_pos (hvariables ▸ Nat.not_le.mp hlarge)] at hrest
      cases hrest
    obtain ⟨hweighed, hsum⟩ := (hcount hcnf hsmall).mp h
    exact ⟨hsmall, hweighed, cnf, hcnf, hsum⟩
  · rintro ⟨hsmall, hweighed, cnf, hcnf, hsum⟩
    exact (hcount hcnf hsmall).mpr ⟨hweighed, hsum⟩

/-- A weighted count of a small formula that can be read is refused for a weight of a variable that matters. -/
theorem exists_of_weightedCount_error (hr : f.SupportInRange) (hcnf : f.toCnf = .ok cnf)
    (hsmall : f.variableCount ≤ Count.maxVariables) {stop : Stop CountError} (h : f.weightedCount = .error stop) :
    ∃ v ∈ f.free, (∃ b, (f.weight ⟨v, b⟩).isValid = false) ∧ stop = .error (.invalidWeight v) := by
  obtain ⟨p, hfree, hcount⟩ := weightedCount_of_small hr hcnf hsmall
  rw [hcount] at h
  cases hws : f.exactWeights p with
  | error e =>
    rw [hws] at h
    obtain ⟨v, hv, hinvalid, rfl⟩ := exists_of_exactWeights_error hws
    exact ⟨v, hfree ▸ List.mem_toFinset.mpr hv, hinvalid, (Except.error.inj h).symm⟩
  | ok ws =>
    rw [hws] at h
    cases h

end Formula
end WeightedCnf

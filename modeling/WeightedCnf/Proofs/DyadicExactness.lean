import WeightedCnf.Proofs.DyadicSize

/-! The dyadic reduction is exact when no weight needs rounding. -/
namespace WeightedCnf
namespace Formula
variable {f g k : Formula} {v : Variable} {d : Nat} {log log' : Log}

/-- The weights of a variable add up to one, they are multiples of two to the minus `bits`, and this way of rounding
spares them. -/
structure NeedsNoRounding (f : Formula) (bits : Nat) (rounding : Rounding) (v : Variable) : Prop where
  positive : 0 < (f.weight v.positive).denom.toInt
  negative : 0 < (f.weight v.negative).denom.toInt
  nonneg : 0 ≤ (f.weight v.positive).rat
  le_one : (f.weight v.positive).rat ≤ 1
  complement : (f.weight v.negative).rat = 1 - (f.weight v.positive).rat
  multiple : IsMultiple bits (f.weight v.positive).rat
  spares : rounding.Spares bits (f.weight v.positive).rat

namespace NeedsNoRounding
variable {bits : Nat} {rounding : Rounding} (h : f.NeedsNoRounding bits rounding v)
include h

private theorem congr (hw : ∀ l, g.weight l = f.weight l) : g.NeedsNoRounding bits rounding v := by
  obtain ⟨hpositive, hnegative, h0, h1, hcomplement, hmultiple, hspares⟩ := h
  exact ⟨by rwa [hw], by rwa [hw], by rwa [hw], by rwa [hw], by rwa [hw, hw], by rwa [hw], by rwa [hw]⟩

private theorem not_skipped : ¬ f.IsSkipped v := by
  have hdenom {w : Weight} (hw : 0 < w.denom.toInt) : w.denom ≠ 0 := by
    rintro hzero
    rw [hzero] at hw
    exact absurd hw (by decide)
  rintro ⟨b, hzero | hnegative⟩
  · cases b with
    | true => exact hdenom h.positive hzero
    | false => exact hdenom h.negative hzero
  · refine absurd hnegative (not_lt.mpr ?_)
    cases b with
    | true => exact h.nonneg
    | false => exact (sub_nonneg.mpr h.le_one).trans_eq h.complement.symm

private theorem hasProbabilities : f.HasProbabilities v := by
  obtain ⟨hpositive, hnegative, h0, h1, hcomplement, -, -⟩ := h
  exact ⟨hpositive, hnegative, h0, hcomplement ▸ sub_nonneg.mpr h1, by rw [hcomplement, add_sub_cancel]⟩

private theorem isSimplifiable : f.IsSimplifiable v := by
  obtain ⟨hpositive, hnegative, h0, hn0, -⟩ := h.hasProbabilities
  obtain ⟨s, hs, -⟩ := Weight.exists_isLowest h0 hpositive
  obtain ⟨t, ht, -⟩ := Weight.exists_isLowest hn0 hnegative
  rintro ⟨u, positive⟩ rfl
  cases positive with
  | true => exact ⟨s, hs⟩
  | false => exact ⟨t, ht⟩

variable (hlow : 1 ≤ bits) (hhigh : bits ≤ 62)
include hlow hhigh

private theorem rat_round {p : Weight} (hp : p.IsLowest (f.weight v.positive).rat) :
    (p.round (.ofNat (1 <<< bits)) rounding).simplify = .ok p ∧
      (p.round (.ofNat (1 <<< bits)) rounding).rat = (f.weight v.positive).rat := by
  have hround := Weight.simplify_round hlow hhigh hp h.nonneg h.le_one h.multiple h.spares
  exact ⟨hround, (Weight.rat_simplify hround).symm.trans hp.rat⟩

private theorem roundedCount_eq : f.roundedCount bits rounding v = auxiliaryDigits (f.weight v.positive).rat := by
  obtain ⟨p, hp, hlowest⟩ := Weight.exists_isLowest h.nonneg h.positive
  rw [roundedCount, if_pos h.hasProbabilities, Weight.lowestTerms_of_simplify hp, (h.rat_round hlow hhigh hlowest).2]

private theorem step {as : List Adjustment}
    (hstep : f.roundWeights (.ofNat (1 <<< bits)) rounding v log = .ok (g, d, as) log') :
    Enlarges f g (auxiliaryDigits (f.weight v.positive).rat) 1 ∧ ∃ w, as = [⟨v, w, w⟩] := by
  obtain ⟨p, w, hp, -, hw, -, -, -, hround⟩ :=
    h.hasProbabilities.roundWeights_eq (two_le_denominator ⟨hlow, hhigh⟩) rounding
  cases hw.symm.trans (h.rat_round hlow hhigh hp).1
  rw [hround] at hstep
  obtain ⟨⟨k, e⟩, log₁, hremove, hret⟩ := Logged.bind_eq_ok.mp hstep
  cases hret
  have hremoved := (enlarges_addComment f _).trans
    ((removal_of_removeRounded hremove).1.enlarges hp h.nonneg h.le_one)
  rw [Nat.zero_add, Nat.zero_add] at hremoved
  exact ⟨hremoved, p, rfl⟩

end NeedsNoRounding

private theorem foldl_widen_of_exact {as : List Adjustment} (h : ∀ a ∈ as, a.original = a.rounded) (bounds : ℚ × ℚ) :
    as.foldl DyadicReduction.widen bounds = bounds := by
  induction as with
  | nil => rfl
  | cons a as ih =>
    rw [List.forall_mem_cons] at h
    have hwiden : DyadicReduction.widen bounds a = bounds := by
      unfold DyadicReduction.widen
      rw [h.1]
      cases a.rounded.toRat? with
      | none => rfl
      | some q => exact if_pos (.inl rfl)
    rw [List.foldl_cons, hwiden, ih h.2]

/-- If every variable has an adjustment and none changes anything, the rounded weights are the true ones. -/
private theorem dyadicSum_eq_weightedSum {as : List Adjustment} (hvars : ∀ v ∈ f.free, v ∈ as.map Adjustment.var)
    (hexact : ∀ a ∈ as, a.original = a.rounded) (hadjusts : ∀ a ∈ as, f.Adjusts a) (cnf : Cnf) :
    f.dyadicSum cnf as Adjustment.factor = f.weightedSum cnf := by
  refine Finset.sum_congr rfl fun m _ => Finset.prod_congr rfl fun v hv => ?_
  unfold dyadicFactor
  cases hfind : as.find? (·.var = v) with
  | none =>
    obtain ⟨a, ha, hvar⟩ := List.mem_map.mp (hvars v hv)
    exact absurd (decide_eq_true hvar) (List.find?_eq_none.mp hfind a ha)
  | some a =>
    have ha := List.mem_of_find?_eq_some hfind
    have hvar : a.var = v := by simpa using List.find?_some hfind
    have hadjust := hadjusts a ha
    have hrat : a.rounded.rat = (f.weight a.var.positive).rat := by
      have horiginal := hadjust.original
      rw [hexact a ha, hadjust.rounded] at horiginal
      exact Option.some.inj horiginal
    subst hvar
    dsimp only
    rw [Adjustment.factor, hrat]
    cases m a.var with
    | true => rfl
    | false => exact hadjust.complement.symm

/-- What holds during a reduction when no weight needs rounding: each variable that was dealt with has one adjustment,
and these do not change anything. -/
structure ExactRun (f : Formula) (done : List Variable) (s : Formula × DyadicReduction) : Prop where
  enlarges : Enlarges f s.1 (done.map fun v => auxiliaryDigits (f.weight v.positive).rat).sum done.length
  vars : s.2.adjustments.map Adjustment.var = done
  exact : ∀ a ∈ s.2.adjustments, a.original = a.rounded

private theorem ExactRun.start (f : Formula) : ExactRun f [] (f, ⟨1, []⟩) := ⟨.refl f, rfl, nofun⟩

private theorem ExactRun.step {done : List Variable} {r : DyadicReduction} {as : List Adjustment}
    (h : ExactRun f done (g, r)) (hg : Enlarges g k (auxiliaryDigits (g.weight v.positive).rat) 1)
    (has : ∃ w, as = [⟨v, w, w⟩]) :
    ExactRun f (done ++ [v]) (k, { denominator := d, adjustments := r.adjustments ++ as }) := by
  obtain ⟨w, rfl⟩ := has
  rw [h.enlarges.weight] at hg
  refine ⟨?_, ?_, List.forall_mem_append.mpr ⟨h.exact, ?_⟩⟩
  · rw [List.map_append, List.sum_append, List.length_append, List.map_singleton, List.sum_singleton]
    exact h.enlarges.trans hg
  · rw [List.map_append, h.vars]
    rfl
  · exact fun a ha => by rw [List.mem_singleton.mp ha]

variable {bits : Nat} {rounding : Rounding}

section Run
variable (hlow : 1 ≤ bits) (hhigh : bits ≤ 62)
include hlow hhigh

variable (hexact : ∀ v ∈ f.free, f.NeedsNoRounding bits rounding v)
include hexact

private theorem ExactRun.next {done : List Variable} {r : DyadicReduction} {as : List Adjustment}
    (h : ExactRun f done (g, r)) (hv : v ∈ f.free)
    (hstep : g.roundWeights (.ofNat (1 <<< bits)) rounding v log = .ok (k, d, as) log') :
    ExactRun f (done ++ [v]) (k, { denominator := r.denominator * d, adjustments := r.adjustments ++ as }) := by
  obtain ⟨hg, has⟩ := ((hexact v hv).congr h.enlarges.weight).step hlow hhigh hstep
  exact h.step hg has

private theorem exactRun {r : DyadicReduction} (h : f.reduceDyadic bits rounding log = .ok (g, r) log') :
    ∃ vs, vs.Nodup ∧ vs.toFinset = f.free ∧ ExactRun f vs (g, r) := by
  obtain ⟨-, vs, hvs, hrun⟩ := reduceDyadic_eq_ok.mp h
  obtain ⟨hnodup, hfree⟩ := freeVariables_eq_ok hvs
  refine ⟨vs, hnodup, hfree, Logged.foldlM_induction (fun done s _ => ExactRun f done s) ?_ ?_ hrun⟩
  · rintro done v ⟨g, r⟩ s' log log' hmem hdone hnext
    obtain ⟨k, d, as, hround, rfl⟩ := roundNext_eq_ok.mp hnext
    have hv : v ∈ f.free := hfree ▸ List.mem_toFinset.mpr (hmem.subset (by simp))
    exact hdone.next hlow hhigh hexact hv hround
  · exact .start f

/-- If no weight needs rounding, the dyadic reduction is exact: no adjustment changes anything, the bounds are one,
and the reduced formula has as many projected models as the weights of the formula add up to, times the denominator.
So the exact reduction gives the same count. With enough variables both reductions succeed; clauses that fit in memory
are not too many. -/
theorem reduceDyadic_exact {cnf : Cnf} (hcnf : f.toCnf = .ok cnf) (hr : f.SupportInRange) (log : Log) :
    (f.clauseCount < 2 ^ 63 →
      (f.variableCount + ∑ v ∈ f.free, auxiliaryDigits (f.weight v.positive).rat ≤ Variable.limit →
        ∃ g r log', f.reduceDyadic bits rounding log = .ok (g, r) log') ∧
      (f.variableCount + ∑ v ∈ f.free, f.auxiliaryCount v ≤ Variable.limit →
        ∃ g d log', f.reduce log = .ok (g, d) log')) ∧
    ∀ g r log', f.reduceDyadic bits rounding log = .ok (g, r) log' →
      g.variableCount = f.variableCount + ∑ v ∈ f.free, auxiliaryDigits (f.weight v.positive).rat ∧
      (∀ v, v ∈ r.adjustments.map Adjustment.var ↔ v ∈ f.free) ∧
      (∀ a ∈ r.adjustments, a.original = a.rounded) ∧ r.bounds = (1, 1) ∧
      ∃ cnf', g.toCnf = .ok cnf' ∧ 0 < r.denominator ∧
        f.weightedSum cnf * r.denominator = (cnf'.models g.free).card ∧
        ∀ k d log₁ log₂, f.reduce log₁ = .ok (k, d) log₂ → ∃ cnf'', k.toCnf = .ok cnf'' ∧ 0 < d ∧
          ((cnf''.models k.free).card : ℚ) / d = (cnf'.models g.free).card / r.denominator := by
  refine ⟨fun hclauses => ⟨fun hvariables => ?_, fun hvariables => ?_⟩, fun g r log' h => ?_⟩
  · rw [← Finset.sum_congr rfl fun v hv => (hexact v hv).roundedCount_eq hlow hhigh] at hvariables
    obtain ⟨g, r, log', hreduce, -⟩ := exists_reduceDyadic hlow hhigh rounding
      (fun v hv => (hexact v hv).isSimplifiable) hvariables hclauses log
    exact ⟨g, r, log', hreduce⟩
  · obtain ⟨⟨g, d⟩, log', hreduce, -⟩ := exists_reduce hvariables hclauses log
    exact ⟨g, d, log', hreduce⟩
  -- One run says what the models weigh after rounding, the other one that rounding changed nothing.
  obtain ⟨vs, hnodup, hfree, hrun⟩ := dyadicRun hr h
  obtain ⟨us, hnodup', hfree', henlarges, hvars, hsame⟩ := exactRun hlow hhigh hexact h
  obtain ⟨cnf', hg, hcard⟩ := hrun.card_models hnodup hfree hcnf
  have hmem : ∀ v, v ∈ r.adjustments.map Adjustment.var ↔ v ∈ f.free := fun v => by
    rw [hvars, ← hfree', List.mem_toFinset]
  have hd : (r.denominator : ℚ) ≠ 0 := Nat.cast_ne_zero.mpr hrun.pos.ne'
  rw [dyadicSum_eq_weightedSum (fun v hv => (hmem v).mpr hv) hsame hrun.adjusts] at hcard
  refine ⟨?_, hmem, hsame, foldl_widen_of_exact hsame _, cnf', hg, hrun.pos, ?_, fun k d log₁ log₂ hreduce => ?_⟩
  · rw [← hfree', List.sum_toFinset _ hnodup']
    exact henlarges.variableCount
  · rw [← hcard, div_mul_cancel₀ _ hd]
  · obtain ⟨hdpos, -⟩ := rescales_reduce hr hreduce
    obtain ⟨cnf'', hk, hcard''⟩ := card_models_of_reduce hcnf hr (fun v hv => (hexact v hv).not_skipped) hreduce
    refine ⟨cnf'', hk, hdpos, ?_⟩
    rw [hcard'', hcard, mul_div_cancel_left₀ _ (Nat.cast_ne_zero.mpr hdpos.ne')]

end Run

/-- A clause over two variables of which one matters; its weights are one quarter and six eighths. -/
def quarters : Formula :=
  ((((ofCounts 2 1).addLine (.raw "1 2 0".toList)).addSupport .one).setWeight ⟨.one, true⟩ ⟨1, 4⟩).setWeight
    ⟨.one, false⟩ ⟨6, 8⟩

theorem reduceDyadic_exact_quarters :
    ∃ cnf g log cnf', quarters.toCnf = .ok cnf ∧
      quarters.reduceDyadic 2 .down #[] = .ok (g, ⟨4, [⟨.one, ⟨1, 4⟩, ⟨1, 4⟩⟩]⟩) log ∧
      g.toCnf = .ok cnf' ∧ quarters.weightedSum cnf * 4 = (cnf'.models g.free).card ∧
      ∃ k d log', quarters.reduce #[] = .ok (k, d) log' ∧ ∃ cnf'', k.toCnf = .ok cnf'' ∧
        ((cnf''.models k.free).card : ℚ) / d = (cnf'.models g.free).card / 4 := by
  obtain ⟨cnf, hcnf⟩ : ∃ cnf, quarters.toCnf = .ok cnf := ⟨_, rfl⟩
  obtain ⟨g, log, hdyadic⟩ : ∃ g log, quarters.reduceDyadic 2 .down #[] =
      .ok (g, ⟨4, [⟨.one, ⟨1, 4⟩, ⟨1, 4⟩⟩]⟩) log := ⟨_, _, rfl⟩
  obtain ⟨k, d, log', hreduce⟩ : ∃ k d log', quarters.reduce #[] = .ok (k, d) log' := ⟨_, _, _, rfl⟩
  have hexact : ∀ v ∈ quarters.free, quarters.NeedsNoRounding 2 .down v := by
    intro v hv
    have hmem : v ∈ quarters.support.toList := mem_free.mp hv
    cases List.mem_singleton.mp hmem
    exact ⟨by decide, by decide, by decide +kernel, by decide +kernel, by decide +kernel, ⟨1, by decide +kernel⟩,
      by decide +kernel⟩
  obtain ⟨-, hall⟩ := reduceDyadic_exact (by decide) (by decide) hexact hcnf (by decide) #[]
  obtain ⟨-, -, -, -, cnf', hg, -, hsum, hagrees⟩ := hall g _ log hdyadic
  obtain ⟨cnf'', hk, -, hcard⟩ := hagrees k d #[] log' hreduce
  exact ⟨cnf, g, log, cnf', hcnf, hdyadic, hg, hsum, k, d, log', hreduce, cnf'', hk, hcard⟩

def certain (value : Bool) : Formula :=
  ((ofCounts 1 0).setWeight ⟨.one, value⟩ ⟨1, 1⟩).setWeight ⟨.one, !value⟩ ⟨0, 1⟩

/-- Zero and one are multiples, but rounding down moves zero away, rounding up moves one away, and rounding to the
nearest moves one away when doubles cannot tell it from the fraction below. -/
theorem reduceDyadic_certain :
    ((∃ cnf, (certain false).toCnf = .ok cnf) ∧ (certain false).SupportInRange ∧
      ((certain false).weight ⟨.one, true⟩).rat = 0 ∧ ((certain false).weight ⟨.one, false⟩).rat = 1) ∧
    (∃ g log, (certain false).reduceDyadic 3 .down #[] = .ok (g, ⟨8, [⟨.one, ⟨0, 1⟩, ⟨1, 8⟩⟩]⟩) log) ∧
    DyadicReduction.bounds ⟨8, [⟨.one, ⟨0, 1⟩, ⟨1, 8⟩⟩]⟩ = (0, 8 / 7) ∧
    (∃ g log, (certain true).reduceDyadic 3 .up #[] = .ok (g, ⟨8, [⟨.one, ⟨1, 1⟩, ⟨7, 8⟩⟩]⟩) log) ∧
    ∃ g log, (certain true).reduceDyadic 54 .near #[] =
      .ok (g, ⟨2 ^ 54, [⟨.one, ⟨1, 1⟩, ⟨2 ^ 54 - 1, 2 ^ 54⟩⟩]⟩) log := by
  have hcnf : ∃ cnf, (certain false).toCnf = .ok cnf := ⟨_, rfl⟩
  have hdown : ∃ g log, (certain false).reduceDyadic 3 .down #[] = .ok (g, ⟨8, [⟨.one, ⟨0, 1⟩, ⟨1, 8⟩⟩]⟩) log :=
    ⟨_, _, rfl⟩
  have hup : ∃ g log, (certain true).reduceDyadic 3 .up #[] = .ok (g, ⟨8, [⟨.one, ⟨1, 1⟩, ⟨7, 8⟩⟩]⟩) log :=
    ⟨_, _, rfl⟩
  have hnear : ∃ g log, (certain true).reduceDyadic 54 .near #[] =
      .ok (g, ⟨2 ^ 54, [⟨.one, ⟨1, 1⟩, ⟨2 ^ 54 - 1, 2 ^ 54⟩⟩]⟩) log := by
    set_option maxRecDepth 2000 in exact ⟨_, _, rfl⟩
  exact ⟨⟨hcnf, by decide, by decide +kernel, by decide +kernel⟩, hdown, by decide +kernel, hup, hnear⟩

end Formula
end WeightedCnf

import WeightedCnf.Proofs.CarefulReading

/-! Completing weights gives one to both literals of every variable, and takes none away that was given. -/
namespace WeightedCnf

/-- The weight that completion leaves a literal with, after these weights were given: a literal that was given none
gets the complement of the weight of its variable, or one half. -/
def completedWeight (given : Literal → Option Weight) (l : Literal) : Weight :=
  (given l).getD ((given l.var.positive).elim .half fun w => w.complement.toOption.getD .invalid)

private theorem Literal.eq_or_eq (l : Literal) : l = l.var.positive ∨ l = l.var.negative := by
  obtain ⟨v, positive⟩ := l
  cases positive with
  | true => exact .inl rfl
  | false => exact .inr rfl

namespace Formula
variable {f g : Formula} {v : Variable} {vs : List Variable}

theorem getElem?_setWeight (f : Formula) (l : Literal) (w : Weight) (k : Literal) :
    (f.setWeight l w).weights[k]? = (f.weights[k]?).or (if l = k then some w else none) := by
  rw [setWeight, Std.TreeMap.getElem?_insertIfNew]
  by_cases hl : l = k
  · subst hl
    simp only [Std.compare_self, true_and, Std.TreeMap.mem_iff_isSome_getElem?, if_true]
    cases f.weights[l]? <;> simp
  · have hcompare : ¬ compare l k = .eq := fun h => hl (Std.LawfulEqOrd.eq_of_compare h)
    rw [if_neg hl, if_neg fun h => hcompare h.1, Option.or_none]

private theorem weights_completeWeights (h : f.completeWeights v = .ok g) (l : Literal) :
    g.weights[l]? = if l.var = v then some (completedWeight (f.weights[·]?) l) else f.weights[l]? := by
  have hne : v.negative ≠ v.positive := nofun
  unfold completeWeights at h
  by_cases hl : l.var = v
  · rw [if_pos hl, completedWeight, hl]
    have hcases : l = v.positive ∨ l = v.negative := hl ▸ l.eq_or_eq
    cases hw : f.weights[v.positive]? with
    | some w =>
      rw [hw] at h
      obtain ⟨w', hw', hg⟩ := bind_eq_ok.mp h
      cases hg
      rcases hcases with rfl | rfl
      · rw [getElem?_setWeight, if_neg hne, hw]
        rfl
      · rw [getElem?_setWeight, if_pos rfl, Option.or_some, Option.elim_some, hw']
        rfl
    | none =>
      rw [hw] at h
      cases h
      rcases hcases with rfl | rfl
      · rw [getElem?_setWeight, getElem?_setWeight, if_pos rfl, if_neg hne, hw]
        rfl
      · rw [getElem?_setWeight, getElem?_setWeight, if_neg hne.symm, if_pos rfl, Option.or_none, Option.or_some]
        rfl
  · have hpositive : v.positive ≠ l := fun he => hl (he ▸ rfl)
    have hnegative : v.negative ≠ l := fun he => hl (he ▸ rfl)
    rw [if_neg hl]
    cases hw : f.weights[v.positive]? with
    | some w =>
      rw [hw] at h
      obtain ⟨w', -, hg⟩ := bind_eq_ok.mp h
      cases hg
      rw [getElem?_setWeight, if_neg hnegative, Option.or_none]
    | none =>
      rw [hw] at h
      cases h
      rw [getElem?_setWeight, getElem?_setWeight, if_neg hpositive, if_neg hnegative, Option.or_none, Option.or_none]

private theorem weights_foldlM_completeWeights (hvs : vs.Nodup) (h : vs.foldlM completeWeights f = .ok g)
    (l : Literal) :
    g.weights[l]? = if l.var ∈ vs then some (completedWeight (f.weights[·]?) l) else f.weights[l]? := by
  induction vs generalizing f with
  | nil =>
    cases h
    rw [if_neg List.not_mem_nil]
  | cons v vs ih =>
    obtain ⟨hv, hvs⟩ := List.nodup_cons.mp hvs
    rw [List.foldlM_cons] at h
    obtain ⟨k, hk, h⟩ := bind_eq_ok.mp h
    rw [ih hvs h]
    have hweights := weights_completeWeights hk
    by_cases hl : l.var ∈ vs
    · -- the variable of this literal is still to come, so its weights are those that were given
      have hne : l.var ≠ v := fun he => hv (he ▸ hl)
      have hpositive : l.var.positive.var ≠ v := hne
      rw [if_pos hl, if_pos (List.mem_cons_of_mem v hl), completedWeight, completedWeight, hweights, hweights,
        if_neg hne, if_neg hpositive]
    · simp only [if_neg hl, hweights, List.mem_cons, or_iff_left hl]

private theorem exists_foldlM_completeWeights (hvs : vs.Nodup)
    (hunsigned : ∀ v ∈ vs, ∀ w, f.weights[v.positive]? = some w → w.IsUnsigned) :
    ∃ g, vs.foldlM completeWeights f = .ok g := by
  induction vs generalizing f with
  | nil => exact ⟨f, rfl⟩
  | cons v vs ih =>
    obtain ⟨hv, hvs⟩ := List.nodup_cons.mp hvs
    obtain ⟨k, hk⟩ : ∃ k, f.completeWeights v = .ok k := by
      unfold completeWeights
      split
      · rename_i w hw
        obtain ⟨w', hw'⟩ := (hunsigned v List.mem_cons_self w hw).exists_complement
        rw [hw']
        exact ⟨_, rfl⟩
      · exact ⟨_, rfl⟩
    obtain ⟨g, hg⟩ := ih (f := k) hvs fun u hu w hw => by
      have hne : u.positive.var ≠ v := fun he => hv (he ▸ hu)
      rw [weights_completeWeights hk, if_neg hne] at hw
      exact hunsigned u (List.mem_cons_of_mem v hu) w hw
    exact ⟨g, by rw [List.foldlM_cons, hk]; exact hg⟩

/-- Completion changes nothing but weights. -/
theorem completeAllWeights_eq (h : f.completeAllWeights = .ok g) : g = { f with weights := g.weights } := by
  obtain ⟨vs, -, hrun⟩ := bind_eq_ok.mp h
  clear h
  induction vs generalizing f with
  | nil =>
    cases hrun
    rfl
  | cons v vs ih =>
    obtain ⟨k, hk, hrun⟩ := bind_eq_ok.mp hrun
    have hkept : k = { f with weights := k.weights } := by
      unfold completeWeights at hk
      split at hk
      · obtain ⟨w, -, hw⟩ := bind_eq_ok.mp hk
        cases hw
        rfl
      · cases hk
        rfl
    rw [ih hrun, hkept]

/-- What completion makes of the weights of all variables. -/
theorem weights_completeAllWeights (h : f.completeAllWeights = .ok g) (l : Literal) : g.weights[l]? =
    if l.var.number ≤ f.variableCount then some (completedWeight (f.weights[·]?) l) else f.weights[l]? := by
  obtain ⟨vs, hvs, h⟩ := bind_eq_ok.mp h
  rw [weights_foldlM_completeWeights (Variable.nodup_first hvs) h]
  simp only [Variable.mem_first hvs]

/-- Weights without signs are completed, if all variables exist. -/
theorem exists_completeAllWeights (hlimit : f.variableCount ≤ Variable.limit)
    (hunsigned : ∀ v w, f.weights[Variable.positive v]? = some w → w.IsUnsigned) :
    ∃ g, f.completeAllWeights = .ok g := by
  obtain ⟨vs, hvs⟩ : ∃ vs, Variable.first f.variableCount = .ok vs := ⟨_, dif_pos hlimit⟩
  obtain ⟨g, hg⟩ := exists_foldlM_completeWeights (Variable.nodup_first hvs) fun v _ => hunsigned v
  exact ⟨g, by rw [completeAllWeights, hvs]; exact hg⟩

end Formula
end WeightedCnf

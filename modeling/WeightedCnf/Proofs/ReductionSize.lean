import WeightedCnf.Proofs.ExactReduction

/-! The exact reduction succeeds as long as there are enough variables, and what it adds is bounded by the number
of auxiliary variables. -/
namespace WeightedCnf

namespace Formula
variable {f g : Formula} {v : Variable}

theorem exists_addAuxiliaries {count : Nat} (h : f.variableCount + count ≤ Variable.limit) :
    ∃ xs g, f.addAuxiliaries count = .ok (xs, g) := by
  induction count generalizing f with
  | zero => exact ⟨_, _, rfl⟩
  | succ count ih =>
    obtain ⟨v, hadd⟩ := exists_addVariable (f := f) (by omega)
    generalize hk : ({ f with variableCount := f.variableCount + 1 } : Formula) = k at hadd
    have hcount : (if f.support.isEmpty then k else k.addSupport v).variableCount = f.variableCount + 1 := by
      split <;> rw [← hk]
      rfl
    obtain ⟨xs, g, hg⟩ := ih (f := if f.support.isEmpty then k else k.addSupport v) (by omega)
    exact ⟨v :: xs, g, bind_eq_ok.mpr ⟨_, hadd, bind_eq_ok.mpr ⟨_, hg, rfl⟩⟩⟩

private theorem exists_addClauses (clauses : List Clause) (h : f.clauseCount + clauses.length < 2 ^ 64) :
    ∃ g, f.addClauses clauses = .ok g := by
  induction clauses generalizing f with
  | nil => exact ⟨_, rfl⟩
  | cons c cs ih =>
    rw [List.length_cons] at h
    have hadd := addClause_eq_ok c (by omega : f.clauseCount + 1 < 2 ^ 64)
    obtain ⟨g, hg⟩ := ih (f := { f.addLine (.clause c) with clauseCount := f.clauseCount + 1 }) (by dsimp only; omega)
    exact ⟨g, bind_eq_ok.mpr ⟨_, hadd, hg⟩⟩

theorem exists_addGuardedChain (guard : Literal) (ls : List Literal) {count : Nat} (hpos : 0 < count)
    (hcount : count ≤ 2 ^ ls.length) (h : f.clauseCount + ls.length < 2 ^ 64) :
    ∃ g, ∃ cs : List Clause, f.addGuardedChain guard ls count = .ok g ∧
      Grows f g [] ((cs.map (guard :: ·)).map .clause) ∧ cs.length ≤ ls.length := by
  obtain ⟨cs, hcs⟩ := Chain.clauses_ok hcount fun hzero => absurd hzero hpos.ne'
  have hlength := Chain.length_clauses_le hcs hpos
  obtain ⟨g, hg⟩ := exists_addClauses (f := f) (cs.map (guard :: ·)) (by rw [List.length_map]; omega)
  exact ⟨g, cs, bind_eq_ok.mpr ⟨cs, hcs, hg⟩, grows_addClauses hg, hlength⟩

private theorem exists_addShare (guard : Literal) {ls : List Literal} {count : Nat} (hcount : count ≤ 2 ^ ls.length)
    (h : f.clauseCount + ls.length + 1 < 2 ^ 64) :
    ∃ g, ∃ cs : List Clause, f.addShare guard ls count = .ok g ∧ Grows f g [] (cs.map .clause) ∧
      cs.length ≤ ls.length + 1 ∧ ∀ c ∈ cs, c ≠ [] := by
  by_cases hzero : count = 0
  · have hadd := addClause_eq_ok [guard] (by omega : f.clauseCount + 1 < 2 ^ 64)
    refine ⟨_, [[guard]], (if_pos hzero).trans hadd, grows_addClause hadd, by simp, by simp⟩
  · obtain ⟨g, cs, hg, hgrows, hlength⟩ := exists_addGuardedChain guard ls (Nat.pos_of_ne_zero hzero) hcount
      (by omega : f.clauseCount + ls.length < 2 ^ 64)
    refine ⟨g, cs.map (guard :: ·), (if_neg hzero).trans hg, hgrows, by rw [List.length_map]; omega, fun c hc => ?_⟩
    obtain ⟨c', -, rfl⟩ := List.mem_map.mp hc
    exact List.cons_ne_nil _ _

/-- `g` is `f` with `auxiliaries` more variables and more clauses, none of them empty: at most two for each of
these variables and `pairs` times two. -/
def Extends (f g : Formula) (auxiliaries pairs : Nat) : Prop :=
  ∃ xs, ∃ cs : List Clause, Grows f g xs (cs.map .clause) ∧ xs.length = auxiliaries ∧
    cs.length ≤ 2 * auxiliaries + 2 * pairs ∧ ∀ c ∈ cs, c ≠ []

namespace Extends
variable {k : Formula} {m n m' n' : Nat}

private theorem refl (f : Formula) : Extends f f 0 0 := ⟨[], [], .refl f, rfl, Nat.le_refl _, fun _ hc => nomatch hc⟩

private theorem trans (h : Extends f g m n) (h' : Extends g k m' n') : Extends f k (m + m') (n + n') := by
  obtain ⟨xs, cs, hgrows, rfl, hlength, hne⟩ := h
  obtain ⟨ys, ds, hgrows', rfl, hlength', hne'⟩ := h'
  refine ⟨xs ++ ys, cs ++ ds, ?_, List.length_append, ?_, List.forall_mem_append.mpr ⟨hne, hne'⟩⟩
  · rw [List.map_append]
    exact hgrows.trans hgrows'
  · rw [List.length_append]
    omega

private theorem mono (h : Extends f g m n) (hn : n ≤ n') : Extends f g m n' := by
  obtain ⟨xs, cs, hgrows, hxs, hlength, hne⟩ := h
  exact ⟨xs, cs, hgrows, hxs, by omega, hne⟩

theorem variableCount (h : Extends f g m n) : g.variableCount = f.variableCount + m := by
  obtain ⟨xs, cs, hgrows, rfl, -⟩ := h
  exact hgrows.variableCount

private theorem weight (h : Extends f g m n) (l : Literal) : g.weight l = f.weight l := by
  obtain ⟨xs, cs, hgrows, -⟩ := h
  exact hgrows.weight l

theorem clauseCount_le (h : Extends f g m n) : g.clauseCount ≤ f.clauseCount + 2 * m + 2 * n := by
  obtain ⟨xs, cs, hgrows, -, hlength, -⟩ := h
  rw [hgrows.clauseCount, flatMap_clauses]
  omega

end Extends

private theorem exists_removeWeights (hvariables : f.variableCount + f.auxiliaryCount v ≤ Variable.limit)
    (hclauses : f.clauseCount + 2 * f.auxiliaryCount v + 2 < 2 ^ 64) (log : Log) :
    ∃ g d log', f.removeWeights v log = .ok (g, d) log' ∧ Extends f g (f.auxiliaryCount v) 1 := by
  by_cases hstays : f.StaysAsIs v
  · obtain ⟨log', hkeep⟩ := removeWeights_of_stays hstays log
    have hzero : f.auxiliaryCount v = 0 := if_pos hstays
    exact ⟨f, 1, log', hkeep, hzero ▸ (Extends.refl f).mono (Nat.zero_le 1)⟩
  obtain ⟨xs, f₁, haux⟩ := exists_addAuxiliaries hvariables
  obtain ⟨hlength, hgrows⟩ := grows_addAuxiliaries haux
  have hcount : f₁.clauseCount = f.clauseCount := hgrows.clauseCount
  have hbits : max (f.shares v).positive.toNat (f.shares v).negative.toNat < 2 ^ (xs.map Variable.positive).length := by
    rw [List.length_map, hlength, auxiliaryCount, if_neg hstays]
    exact lt_two_pow_bitLength _
  have hpositive : (f.shares v).positive.toNat ≤ 2 ^ (xs.map Variable.positive).length := by omega
  have hnegative : (f.shares v).negative.toNat ≤ 2 ^ (xs.map Variable.positive).length := by omega
  obtain ⟨f₂, ps, hadd₂, hgrows₂, hps, hne₂⟩ := exists_addShare (f := f₁) v.negative hpositive
    (by rw [List.length_map]; omega)
  have hcount₂ := hgrows₂.clauseCount
  rw [flatMap_clauses] at hcount₂
  rw [List.length_map, hlength] at hps
  obtain ⟨f₃, ns, hadd₃, hgrows₃, hns, hne₃⟩ := exists_addShare (f := f₂) v.positive hnegative
    (by rw [List.length_map]; omega)
  rw [List.length_map, hlength] at hns
  have hextends : Extends f f₃ (f.auxiliaryCount v) 1 := by
    refine ⟨xs, ps ++ ns, ?_, hlength, ?_, List.forall_mem_append.mpr ⟨hne₂, hne₃⟩⟩
    · have hall := (hgrows.trans hgrows₂).trans hgrows₃
      simpa using hall
    · rw [List.length_append]
      omega
  refine ⟨f₃, (f.shares v).denominator.toNat,
    log.push (.weightsRemoved v (f.weight v.positive) (f.weight v.negative) (f.auxiliaryCount v)), ?_, hextends⟩
  rw [removeWeights_of_not_stays hstays]
  refine Logged.bind_eq_ok.mpr ⟨_, log, Logged.lift_eq_ok.mpr ⟨haux, rfl⟩, ?_⟩
  refine Logged.bind_eq_ok.mpr ⟨_, log, Logged.lift_eq_ok.mpr ⟨hadd₂, rfl⟩, ?_⟩
  exact Logged.bind_eq_ok.mpr ⟨_, log, Logged.lift_eq_ok.mpr ⟨hadd₃, rfl⟩, rfl⟩

private theorem auxiliaryCount_congr (h : ∀ l, g.weight l = f.weight l) (v : Variable) :
    g.auxiliaryCount v = f.auxiliaryCount v := by
  have hstays : g.StaysAsIs v ↔ f.StaysAsIs v := by simp only [StaysAsIs, IsSkipped, shares, h]
  have hshares : g.shares v = f.shares v := by rw [shares, shares, h, h]
  rw [auxiliaryCount, auxiliaryCount, hshares]
  exact if_congr hstays rfl rfl

theorem card_free_le (f : Formula) : f.free.card ≤ Variable.limit := by
  have hcard := Finset.card_le_card_of_injOn (s := f.free) (t := Finset.range Variable.limit) Variable.index
    (fun v _ => Finset.mem_coe.mpr (Finset.mem_range.mpr v.index_lt))
    fun u _ v _ h => Variable.number_injective (congrArg (· + 1) h)
  rwa [Finset.card_range] at hcard

theorem exists_freeVariables (h : f.variableCount ≤ Variable.limit) :
    ∃ vs, f.freeVariables = .ok vs := by
  unfold freeVariables
  split
  · exact ⟨_, dif_pos h⟩
  · exact ⟨_, rfl⟩

/-- With enough variables the reduction succeeds. -/
theorem exists_reduce (hvariables : f.variableCount + ∑ v ∈ f.free, f.auxiliaryCount v ≤ Variable.limit)
    (hclauses : f.clauseCount < 2 ^ 63) (log : Log) :
    ∃ r log', f.reduce log = .ok r log' ∧ Extends f r.1 (∑ v ∈ f.free, f.auxiliaryCount v) f.free.card := by
  obtain ⟨vs, hvs⟩ := exists_freeVariables (f := f) (by omega)
  obtain ⟨hnodup, hfree⟩ := freeVariables_eq_ok hvs
  have hcard : vs.length = f.free.card := by rw [← hfree, List.toFinset_card_of_nodup hnodup]
  have hsum : (vs.map f.auxiliaryCount).sum = ∑ v ∈ f.free, f.auxiliaryCount v := by
    rw [← hfree, List.sum_toFinset _ hnodup]
  have hfew := f.card_free_le
  have hlimit : Variable.limit = 2 ^ 28 := rfl
  unfold reduce
  rw [run_bind_of_ok (Logged.lift_eq_ok.mpr ⟨hvs, rfl⟩), ← hsum, ← hcard]
  apply Logged.exists_foldlM
    fun done (r : Formula × Nat) _ => Extends f r.1 (done.map f.auxiliaryCount).sum done.length
  · rintro done v ⟨g, d⟩ log ⟨rest, rfl⟩ hdone
    have hcount : g.variableCount = _ := hdone.variableCount
    have hclauseCount : g.clauseCount ≤ _ := hdone.clauseCount_le
    have hauxiliaries : g.auxiliaryCount v = f.auxiliaryCount v := auxiliaryCount_congr hdone.weight v
    simp only [List.map_append, List.sum_append, List.map_cons, List.map_nil, List.sum_singleton,
      List.length_append, List.length_singleton] at hsum hcard
    obtain ⟨k, e, log', hremove, hextends⟩ := exists_removeWeights (f := g) (v := v) (by omega) (by omega) log
    refine ⟨(k, d * e), log', Logged.bind_eq_ok.mpr ⟨_, _, hremove, rfl⟩, ?_⟩
    rw [List.map_append, List.sum_append, List.length_append, List.map_singleton, List.sum_singleton, ← hauxiliaries]
    exact hdone.trans hextends
  · exact Extends.refl f

end Formula
end WeightedCnf

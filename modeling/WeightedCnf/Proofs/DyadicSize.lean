import WeightedCnf.Proofs.DyadicReduction
import WeightedCnf.Proofs.ExactRounding
import WeightedCnf.Proofs.ReductionSize

/-! The dyadic reduction succeeds as long as there are enough variables, and what it adds is bounded by the number of
auxiliary variables. -/
namespace WeightedCnf

/-- The number of auxiliary variables for a weight of this value. -/
def auxiliaryDigits (q : ℚ) : Nat :=
  if q = 1 / 2 ∨ q = 0 ∨ q = 1 then 0 else bitLength (q.den - 1)

/-- The lowest terms of a weight, or the weight as it is if it cannot be simplified. -/
def Weight.lowestTerms (w : Weight) : Weight :=
  match w.simplify with
  | .ok s => s
  | .error _ => w

theorem Weight.lowestTerms_of_simplify {w s : Weight} (h : w.simplify = .ok s) : w.lowestTerms = s := by
  rw [lowestTerms, h]

namespace Formula
variable {f g k : Formula} {v : Variable} {m n m' n' d : Nat} {log log' : Log} {w positive : Weight} {q : ℚ}

/-- `g` has the weights of `f` and `auxiliaries` more variables, and at most two more clauses for each of these
variables and two for each of `pairs`. -/
structure Enlarges (f g : Formula) (auxiliaries pairs : Nat) : Prop where
  weight : ∀ l, g.weight l = f.weight l
  variableCount : g.variableCount = f.variableCount + auxiliaries
  clauseCount_le : g.clauseCount ≤ f.clauseCount + 2 * auxiliaries + 2 * pairs

namespace Enlarges

theorem refl (f : Formula) : Enlarges f f 0 0 := ⟨fun _ => rfl, rfl, Nat.le_refl _⟩

theorem trans (h : Enlarges f g m n) (h' : Enlarges g k m' n') : Enlarges f k (m + m') (n + n') := by
  have := h.variableCount
  have := h.clauseCount_le
  have := h'.variableCount
  have := h'.clauseCount_le
  exact ⟨fun l => (h'.weight l).trans (h.weight l), by omega, by omega⟩

end Enlarges

private theorem Grows.enlarges {xs : List Variable} {added : List Line} (h : Grows f g xs added) (hm : xs.length = m)
    (hn : (added.flatMap Line.clauses).length ≤ 2 * m + 2 * n) : Enlarges f g m n := by
  have := h.variableCount
  have := h.clauseCount
  exact ⟨h.weight, by omega, by omega⟩

theorem enlarges_addComment (f : Formula) (text : List Char) : Enlarges f (f.addComment text) 0 0 :=
  (grows_addComment f text).enlarges rfl (Nat.zero_le _)

section Removal
variable (hw : w.IsLowest q)
include hw

private theorem auxiliaryDigits_eq_zero (h : w = .half ∨ w.num = 0 ∨ w.num = w.denom) : auxiliaryDigits q = 0 := by
  rw [hw.eq_half_iff, hw.num_eq_zero_iff, hw.num_eq_denom_iff] at h
  exact if_pos h

private theorem auxiliaryDigits_eq (hhalf : w ≠ .half) (hzero : w.num ≠ 0) (hone : w.num ≠ w.denom) :
    auxiliaryDigits q = bitLength (q.den - 1) := by
  rw [ne_eq, hw.eq_half_iff] at hhalf
  rw [ne_eq, hw.num_eq_zero_iff] at hzero
  rw [ne_eq, hw.num_eq_denom_iff] at hone
  exact if_neg (not_or.mpr ⟨hhalf, not_or.mpr ⟨hzero, hone⟩⟩)

variable (h0 : 0 ≤ q) (h1 : q ≤ 1)
include h0 h1

/-- A weight that is neither zero nor one is strictly between them. -/
theorem num_between (hzero : w.num ≠ 0) (hone : w.num ≠ w.denom) :
    0 < w.num.toInt ∧ w.num.toInt < w.denom.toInt := by
  rw [ne_eq, ← Int64.toInt_inj] at hzero hone
  exact ⟨lt_of_le_of_ne (hw.isUnsigned h0).num (Ne.symm hzero), lt_of_le_of_ne (hw.num_le_denom h1) hone⟩

theorem Removal.enlarges (h : Removal f v w g d) : Enlarges f g (auxiliaryDigits q) 1 := by
  cases h with
  | half h =>
    rw [auxiliaryDigits_eq_zero hw (.inl h)]
    exact (Grows.refl f).enlarges rfl (Nat.zero_le _)
  | certain b h hadd =>
    rw [auxiliaryDigits_eq_zero hw (by cases b <;> simp [h])]
    exact (grows_addClause hadd).enlarges rfl (by simp [Line.clauses])
  | @chains xs f₁ f₂ f₃ rest hhalf hzero hone hauxiliaries hup hrest hdown =>
    obtain ⟨hpos, hlt⟩ := num_between hw h0 h1 hzero hone
    obtain ⟨hlength, hgrows⟩ := grows_addAuxiliaries hauxiliaries
    obtain ⟨ps, hps, hgps⟩ := grows_addGuardedChain hup
    obtain ⟨ns, hns, hgns⟩ := grows_addGuardedChain hdown
    obtain ⟨hrnum, -⟩ := Weight.complement_eq_ok hrest
    have hpslength := Chain.length_clauses_le hps (by omega)
    have hnslength := Chain.length_clauses_le hns (by omega)
    rw [List.length_map] at hpslength hnslength
    rw [hw.toNat_denom] at hlength
    rw [auxiliaryDigits_eq hw hhalf hzero hone]
    refine ((hgrows.trans hgps).trans hgns).enlarges (by simpa using hlength) ?_
    simp only [List.nil_append, List.flatMap_append, flatMap_clauses, List.length_append, List.length_map]
    omega

omit hw h0 h1 in
private theorem exists_chains {digits up down : Nat} (hup : 0 < up) (hup' : up ≤ 2 ^ digits) (hdown : 0 < down)
    (hdown' : down ≤ 2 ^ digits) (hvariables : f.variableCount + digits ≤ Variable.limit)
    (hclauses : f.clauseCount + 2 * digits < 2 ^ 64) (v : Variable) :
    ∃ xs f₁ f₂ f₃, f.addAuxiliaries digits = .ok (xs, f₁) ∧
      f₁.addGuardedChain v.negative (xs.map Variable.positive) up = .ok f₂ ∧
      f₂.addGuardedChain v.positive (xs.map Variable.negative) down = .ok f₃ := by
  obtain ⟨xs, f₁, hauxiliaries⟩ := exists_addAuxiliaries hvariables
  obtain ⟨hlength, hgrows⟩ := grows_addAuxiliaries hauxiliaries
  have hcount : f₁.clauseCount = f.clauseCount := hgrows.clauseCount
  have hliterals {literal : Variable → Literal} : (xs.map literal).length = digits := by
    rw [List.length_map, hlength]
  obtain ⟨f₂, ps, hchain, hgps, hps⟩ := exists_addGuardedChain (f := f₁) v.negative (xs.map Variable.positive) hup
    (by rwa [hliterals]) (by rw [hliterals]; omega)
  have hcount₂ := hgps.clauseCount
  rw [flatMap_clauses, List.length_map] at hcount₂
  rw [hliterals] at hps
  obtain ⟨f₃, ns, hchain', -⟩ := exists_addGuardedChain (f := f₂) v.positive (xs.map Variable.negative) hdown
    (by rwa [hliterals]) (by rw [hliterals]; omega)
  exact ⟨xs, f₁, f₂, f₃, hauxiliaries, hchain, hchain'⟩

/-- A rounded weight can be removed as long as there are enough variables. -/
theorem exists_removeRounded (hvariables : f.variableCount + auxiliaryDigits q ≤ Variable.limit)
    (hclauses : f.clauseCount + 2 * auxiliaryDigits q + 1 < 2 ^ 64) (v : Variable) (positive : Weight) (log : Log) :
    ∃ g d log', f.removeRounded v positive w log = .ok (g, d) log' := by
  have hadd {l : Literal} : ∃ g d log', (do return (← Logged.lift (f.addClause [l]), 1) : Logged Fault _) log =
      .ok (g, d) log' := by
    have hok := addClause_eq_ok (f := f) [l] (by omega)
    exact ⟨_, _, _, Logged.bind_eq_ok.mpr ⟨_, _, Logged.lift_eq_ok.mpr ⟨hok, rfl⟩, rfl⟩⟩
  unfold removeRounded
  split
  · exact ⟨_, _, _, rfl⟩
  rename_i hhalf
  split
  · exact hadd
  rename_i hzero
  split
  · exact hadd
  rename_i hone
  obtain ⟨hpos, hlt⟩ := num_between hw h0 h1 hzero hone
  obtain ⟨rest, hrest⟩ := (hw.isUnsigned h0).exists_complement
  obtain ⟨hrnum, -⟩ := Weight.complement_eq_ok hrest
  have hdigits := lt_two_pow_bitLength (q.den - 1)
  have hden := hw.denom
  rw [auxiliaryDigits_eq hw hhalf hzero hone] at hvariables hclauses
  obtain ⟨xs, f₁, f₂, f₃, hauxiliaries, hup, hdown⟩ := exists_chains (by omega : 0 < w.num.toInt.toNat) (by omega)
    (by omega : 0 < rest.num.toInt.toNat) (by omega) hvariables (by omega) v
  rw [hw.toNat_denom]
  refine ⟨f₃, q.den, log.push (.roundedWeightRemoved v positive w (bitLength (q.den - 1))), ?_⟩
  refine Logged.bind_eq_ok.mpr ⟨_, log, Logged.lift_eq_ok.mpr ⟨hauxiliaries, rfl⟩, ?_⟩
  refine Logged.bind_eq_ok.mpr ⟨_, log, Logged.lift_eq_ok.mpr ⟨hup, rfl⟩, ?_⟩
  refine Logged.bind_eq_ok.mpr ⟨_, log, Logged.lift_eq_ok.mpr ⟨hrest, rfl⟩, ?_⟩
  exact Logged.bind_eq_ok.mpr ⟨_, log, Logged.lift_eq_ok.mpr ⟨hdown, rfl⟩, rfl⟩

end Removal

def HasProbabilities (f : Formula) (v : Variable) : Prop :=
  0 < (f.weight v.positive).denom.toInt ∧ 0 < (f.weight v.negative).denom.toInt ∧ 0 ≤ (f.weight v.positive).rat ∧
    0 ≤ (f.weight v.negative).rat ∧ (f.weight v.positive).rat + (f.weight v.negative).rat = 1

instance (f : Formula) (v : Variable) : Decidable (f.HasProbabilities v) :=
  inferInstanceAs (Decidable (_ ∧ _))

def IsSimplifiable (f : Formula) (v : Variable) : Prop :=
  ∀ l : Literal, l.var = v → ∃ w, (f.weight l).simplify = .ok w

def NeverUnroundable (log log' : Log) : Prop :=
  ∃ events, log'.toList = log.toList ++ events ∧ ∀ v w, .unroundableWeight v w ∉ events

private theorem neverUnroundable_refl (log : Log) : NeverUnroundable log log :=
  ⟨[], (List.append_nil _).symm, fun _ _ => List.not_mem_nil⟩

private theorem NeverUnroundable.trans {log'' : Log} (h : NeverUnroundable log log')
    (h' : NeverUnroundable log' log'') :
    NeverUnroundable log log'' := by
  obtain ⟨events, hlog, hnone⟩ := h
  obtain ⟨more, hlog', hnone'⟩ := h'
  refine ⟨events ++ more, by rw [hlog', hlog, List.append_assoc], fun v w hmem => ?_⟩
  exact (List.mem_append.mp hmem).elim (hnone v w) (hnone' v w)

private theorem neverUnroundable_push {e : Event} (he : ∀ v w, e ≠ .unroundableWeight v w) :
    NeverUnroundable log (log.push e) :=
  ⟨[e], Array.toList_push, fun v w hmem => he v w (List.mem_singleton.mp hmem).symm⟩

section Step
variable {denom : Int64} {rounding : Rounding}

/-- Weights that are not probabilities are left alone, and none of them gets so far as to be rounded. -/
private theorem roundWeights_of_not_hasProbabilities (hsimplify : f.IsSimplifiable v) (h : ¬ f.HasProbabilities v)
    (log : Log) : ∃ d log', f.roundWeights denom rounding v log = .ok (f, d, []) log' ∧
      NeverUnroundable log log' := by
  obtain ⟨p, hp⟩ := hsimplify v.positive rfl
  obtain ⟨n, hn⟩ := hsimplify v.negative rfl
  unfold roundWeights
  rw [hp, hn]
  simp only [Logged.lift, pure_bind]
  split
  · exact ⟨2, log, rfl, neverUnroundable_refl log⟩
  split
  · exact ⟨1, _, rfl, neverUnroundable_push fun _ _ => by simp⟩
  rename_i hdenom
  split
  · exact ⟨1, _, rfl, neverUnroundable_push fun _ _ => by simp⟩
  rename_i hagree
  split
  · exact ⟨1, _, rfl, neverUnroundable_push fun _ _ => by simp⟩
  rename_i hsign
  refine absurd ?_ h
  obtain ⟨hdenom', hsum⟩ : p.denom = n.denom ∧ p.num.toInt + n.num.toInt = p.denom.toInt := by
    simpa using hagree
  have hpd : 0 < p.denom.toInt := by omega
  have hnd : 0 < n.denom.toInt := by omega
  have hrat := rat_negative hpd hdenom' hsum
  rw [HasProbabilities, ← Weight.rat_simplify hp, ← Weight.rat_simplify hn]
  refine ⟨Weight.denom_pos_of_simplify hp hpd, Weight.denom_pos_of_simplify hn hnd,
    (Weight.rat_nonneg_iff hpd).mpr (by omega), (Weight.rat_nonneg_iff hnd).mpr (by omega), ?_⟩
  rw [hrat, add_sub_cancel]

namespace HasProbabilities
variable (h : f.HasProbabilities v)
include h

private theorem le_one : (f.weight v.positive).rat ≤ 1 := by
  obtain ⟨-, -, -, hn, hsum⟩ := h
  linarith

/-- Probabilities pass all checks, and they can be rounded. -/
theorem roundWeights_eq (hD : 2 ≤ denom.toInt) (rounding : Rounding) :
    ∃ p w : Weight, p.IsLowest (f.weight v.positive).rat ∧ (f.weight v.positive).simplify = .ok p ∧
      (p.round denom rounding).simplify = .ok w ∧ w.IsLowest (p.round denom rounding).rat ∧
      0 ≤ (p.round denom rounding).rat ∧ (p.round denom rounding).rat ≤ 1 ∧
      f.roundWeights denom rounding v = (do
        let (g, factor) ← (f.addComment (Adjustment.comment ⟨v, p, w⟩)).removeRounded v p w
        return (g, factor, [⟨v, p, w⟩])) := by
  have h1 := h.le_one
  obtain ⟨hpositive, hnegative, h0, hn0, hsum⟩ := h
  obtain ⟨p, hp, hlowest⟩ := Weight.exists_isLowest h0 hpositive
  obtain ⟨n, hn, hlowest'⟩ := Weight.exists_isLowest hn0 hnegative
  rw [eq_sub_of_add_eq' hsum] at hlowest'
  obtain ⟨hdenom, hadd⟩ := hlowest.complement hlowest'
  have hpos := hlowest.denom_pos
  have hpos' := hlowest'.denom_pos
  have hsign := (hlowest.isUnsigned h0).num
  have hsign' := (hlowest'.isUnsigned (sub_nonneg.mpr h1)).num
  have hone : ¬ (p = .one ∧ n = .one) := by
    rintro ⟨rfl, rfl⟩
    exact absurd hadd (by decide)
  have hagree : ¬ (p.denom ≠ n.denom ∨ p.num.toInt + n.num.toInt ≠ p.denom.toInt) :=
    not_or.mpr ⟨not_not.mpr hdenom, not_not.mpr hadd⟩
  obtain ⟨c, hc, hc0, hc1, -⟩ := Weight.round_eq hpos hsign (by omega) hD rounding
  have hD' : 0 < (p.round denom rounding).denom.toInt := by
    rw [hc]
    exact lt_of_lt_of_le two_pos hD
  have hround0 : 0 ≤ (p.round denom rounding).rat := (Weight.rat_nonneg_iff hD').mpr (by rwa [hc])
  have hround1 : (p.round denom rounding).rat ≤ 1 := (Weight.rat_le_one_iff hD').mpr (by rwa [hc])
  obtain ⟨w, hw, hwlowest⟩ := Weight.exists_isLowest hround0 hD'
  refine ⟨p, w, hlowest, hp, hw, hwlowest, hround0, hround1, ?_⟩
  unfold roundWeights
  rw [hp, hn]
  simp only [Logged.lift, pure_bind]
  rw [if_neg hone, if_neg (by omega), if_neg hagree, if_neg (by omega), hw]
  simp only [pure_bind]
  rw [if_neg (by rw [Weight.isValid_of_pos hwlowest.denom_pos]; decide)]
  rfl

end HasProbabilities

/-- The number of auxiliary variables that the weights of a variable take when they are rounded. -/
def roundedCount (f : Formula) (bits : Nat) (rounding : Rounding) (v : Variable) : Nat :=
  if f.HasProbabilities v then
    auxiliaryDigits ((f.weight v.positive).lowestTerms.round (.ofNat (1 <<< bits)) rounding).rat
  else 0

end Step

section Run
variable {bits : Nat} (hlow : 1 ≤ bits) (hhigh : bits ≤ 62) (rounding : Rounding)
include hlow hhigh

/-- With enough variables the weights of a variable are dealt with. -/
theorem exists_roundWeights (hsimplify : f.IsSimplifiable v)
    (hvariables : f.variableCount + f.roundedCount bits rounding v ≤ Variable.limit)
    (hclauses : f.clauseCount + 2 * f.roundedCount bits rounding v + 1 < 2 ^ 64) (log : Log) :
    ∃ g d as log', f.roundWeights (.ofNat (1 <<< bits)) rounding v log = .ok (g, d, as) log' ∧
      Enlarges f g (f.roundedCount bits rounding v) 1 ∧ NeverUnroundable log log' := by
  by_cases h : f.HasProbabilities v
  · obtain ⟨p, w, -, hp, -, hw, h0, h1, hround⟩ := h.roundWeights_eq (two_le_denominator ⟨hlow, hhigh⟩) rounding
    rw [← Weight.lowestTerms_of_simplify hp] at hw h0 h1
    rw [roundedCount, if_pos h] at hvariables hclauses ⊢
    obtain ⟨g, d, log', hremove⟩ := exists_removeRounded (f := f.addComment (Adjustment.comment ⟨v, p, w⟩)) hw h0 h1
      hvariables hclauses v p log
    obtain ⟨hremoval, events, hlog, hevents⟩ := removal_of_removeRounded hremove
    have henlarges := (enlarges_addComment f _).trans (hremoval.enlarges hw h0 h1)
    rw [Nat.zero_add, Nat.zero_add] at henlarges
    rw [hround]
    refine ⟨g, d, _, log', Logged.bind_eq_ok.mpr ⟨_, _, hremove, rfl⟩, henlarges, events, hlog, fun u x hmem => ?_⟩
    have hskip := hevents _ hmem u
    simp [Event.isSkipOf] at hskip
  · obtain ⟨d, log', hround, hnever⟩ := roundWeights_of_not_hasProbabilities hsimplify h log
    rw [roundedCount, if_neg h]
    exact ⟨f, d, [], log', hround, ⟨fun _ => rfl, rfl, Nat.le_add_right _ _⟩, hnever⟩

omit hlow hhigh in
private theorem roundedCount_congr (h : ∀ l, g.weight l = f.weight l) (v : Variable) :
    g.roundedCount bits rounding v = f.roundedCount bits rounding v := by
  have hprobabilities : g.HasProbabilities v ↔ f.HasProbabilities v := by simp only [HasProbabilities, h]
  rw [roundedCount, roundedCount, h]
  exact if_congr hprobabilities rfl rfl

/-- With enough variables the reduction succeeds, and it never comes upon a weight that cannot be rounded. -/
theorem exists_reduceDyadic (hsimplify : ∀ v ∈ f.free, f.IsSimplifiable v)
    (hvariables : f.variableCount + ∑ v ∈ f.free, f.roundedCount bits rounding v ≤ Variable.limit)
    (hclauses : f.clauseCount < 2 ^ 63) (log : Log) :
    ∃ g r log', f.reduceDyadic bits rounding log = .ok (g, r) log' ∧
      Enlarges f g (∑ v ∈ f.free, f.roundedCount bits rounding v) f.free.card ∧ NeverUnroundable log log' := by
  obtain ⟨vs, hvs⟩ := exists_freeVariables (f := f) (by omega)
  obtain ⟨hnodup, hfree⟩ := freeVariables_eq_ok hvs
  have hcard : vs.length = f.free.card := by rw [← hfree, List.toFinset_card_of_nodup hnodup]
  have hsum : (vs.map (f.roundedCount bits rounding)).sum = ∑ v ∈ f.free, f.roundedCount bits rounding v := by
    rw [← hfree, List.sum_toFinset _ hnodup]
  have hfew := f.card_free_le
  have hlimit : Variable.limit = 2 ^ 28 := rfl
  obtain ⟨⟨g, r⟩, log', hrun, henlarges, hnever⟩ : ∃ s log',
      vs.foldlM (roundNext (.ofNat (1 <<< bits)) rounding) (f, ⟨1, []⟩) log = .ok s log' ∧
        Enlarges f s.1 (vs.map (f.roundedCount bits rounding)).sum vs.length ∧ NeverUnroundable log log' := by
    apply Logged.exists_foldlM fun done (s : Formula × DyadicReduction) log' =>
      Enlarges f s.1 (done.map (f.roundedCount bits rounding)).sum done.length ∧ NeverUnroundable log log'
    · rintro done v ⟨g, r⟩ log₁ ⟨rest, rfl⟩ ⟨hdone, hnever⟩
      have hcount : g.variableCount = _ := hdone.variableCount
      have hclauseCount : g.clauseCount ≤ _ := hdone.clauseCount_le
      have hrounded : g.roundedCount bits rounding v = f.roundedCount bits rounding v :=
        roundedCount_congr rounding hdone.weight v
      have hv : v ∈ f.free := hfree ▸ List.mem_toFinset.mpr (by simp)
      have hsimplify' : g.IsSimplifiable v := fun l hl => hdone.weight l ▸ hsimplify v hv l hl
      simp only [List.map_append, List.sum_append, List.map_cons, List.map_nil, List.sum_singleton,
        List.length_append, List.length_singleton] at hsum hcard
      -- Each step adds no more than two clauses for each auxiliary variable and two for its own variable, so that
      -- there are fewer than 2 ^ 63 + 2 ^ 30 of them.
      obtain ⟨k, d, as, log₂, hround, henlarges, hnever'⟩ :=
        exists_roundWeights hlow hhigh rounding hsimplify' (by omega) (by omega) log₁
      refine ⟨_, log₂, roundNext_eq_ok.mpr ⟨k, d, as, hround, rfl⟩, ?_, hnever.trans hnever'⟩
      rw [List.map_append, List.sum_append, List.length_append, List.map_singleton, List.sum_singleton, ← hrounded]
      exact hdone.trans henlarges
    · exact ⟨.refl f, neverUnroundable_refl log⟩
  rw [← hsum, ← hcard]
  exact ⟨g, r, log', reduceDyadic_eq_ok.mpr ⟨⟨hlow, hhigh⟩, vs, hvs, hrun⟩, henlarges, hnever⟩

end Run
end Formula
end WeightedCnf

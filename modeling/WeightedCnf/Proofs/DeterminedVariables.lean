import Mathlib.Data.Nat.Prime.Basic
import WeightedCnf.Proofs.DyadicExactness
import WeightedCnf.Proofs.ReductionLines

/-! In the dyadic reduction the auxiliary variables of a rounded weight determine the value of its variable: the two
chains hold for complementary sets of their assignments. -/
namespace WeightedCnf
open WeightedCnf.Valuation

/-- Negated literals count down where the literals count up. -/
private theorem Valuation.number_add_number (a : Valuation) (xs : List Variable) :
    a.number (xs.map Variable.positive) + a.number (xs.map Variable.negative) + 1 = 2 ^ xs.length := by
  induction xs with
  | nil => rfl
  | cons x xs ih =>
    have hbit : (a.literal x.positive).toNat + (a.literal x.negative).toNat = 1 := by
      cases hx : a x <;> simp [Valuation.literal, Variable.positive, Variable.negative, hx]
    rw [List.map_cons, List.map_cons, number, number, List.length_cons, pow_succ]
    omega

/-- Clauses over a variable and some others, in which the values of the others leave one value for the variable: true
for `count` of the assignments of the others. -/
structure Determines (cs : List Clause) (xs : List Variable) (v : Variable) (count : Nat) : Prop where
  onlyOver : OnlyOver (fun u => u = v ∨ u ∈ xs) cs
  existsUnique : ∀ t : Valuation, ∃! b, Valuation.satisfies (Function.update t v b) cs = true
  extensions_true : extensions cs xs.toFinset v true = count

/-- A chain that counts up and one that counts down by the rest exclude each other. -/
private theorem determines_guarded {xs : List Variable} {v : Variable} {up down : Nat} {ps ns : List Clause}
    (hp : Threshold (xs.map Variable.positive) up ps) (hn : Threshold (xs.map Variable.negative) down ns)
    (hsum : up + down = 2 ^ xs.length) (hd : xs.Nodup) (hv : v ∉ xs) : Determines (guarded v ps ns) xs v up where
  onlyOver := by
    refine onlyOver_guarded (.inl rfl) (hp.onlyOver.mono fun u hu => ?_) (hn.onlyOver.mono fun u hu => ?_)
    · exact .inr (map_var_mk xs true ▸ hu)
    · exact .inr (map_var_mk xs false ▸ hu)
  existsUnique t := by
    have hfits (b : Bool) : Valuation.satisfies (Function.update t v b) (guarded v ps ns) = true ↔
        (b = true ↔ 2 ^ xs.length ≤ t.number (xs.map Variable.positive) + up) := by
      have htotal := t.number_add_number xs
      have hups := hp.satisfies t
      have hdowns := hn.satisfies t
      rw [List.length_map] at hups hdowns
      rw [satisfies_update_guarded hp hn (map_var_mk xs true) (map_var_mk xs false) hv]
      cases b with
      | true => rw [if_pos rfl, hups, eq_self_iff_true, true_iff]
      | false =>
        rw [if_neg Bool.false_ne_true, hdowns, iff_comm]
        simp only [Bool.false_eq_true, false_iff]
        omega
    refine ⟨decide (2 ^ xs.length ≤ t.number (xs.map Variable.positive) + up), ?_, fun b hb => ?_⟩
    · exact (hfits _).mpr decide_eq_true_iff
    · rw [Bool.eq_iff_iff, decide_eq_true_iff]
      exact (hfits b).mp hb
  extensions_true := by
    rw [extensions_guarded hp hn (map_var_mk xs true) (map_var_mk xs false) hv hd, if_pos rfl]

private theorem bitLength_two_pow_sub_one (j : Nat) : bitLength (2 ^ j - 1) = j := by
  cases j with
  | zero => rfl
  | succ j =>
    have hpos := Nat.two_pow_pos j
    have hne : 2 ^ (j + 1) - 1 ≠ 0 := by omega
    have hlog : (2 ^ (j + 1) - 1).log2 = j := (Nat.log2_eq_iff hne).mpr (by omega)
    rw [bitLength, if_neg hne, hlog]

private theorem Weight.IsLowest.of_odd {w : Weight} {n j : Nat} (h : w.IsLowest (n / 2 ^ j)) (hn : Odd n) :
    w.num.toInt = n ∧ w.denom.toInt = (2 ^ j : Nat) := by
  have hpos : (0 : ℤ) < (2 ^ j : Nat) := Int.natCast_pos.mpr (Nat.two_pow_pos j)
  have hcoprime : Nat.Coprime (n : ℤ).natAbs ((2 ^ j : Nat) : ℤ).natAbs := hn.coprime_two_right.pow_right j
  have hq : (n / 2 ^ j : ℚ) = ((n : ℤ) : ℚ) / (((2 ^ j : Nat) : ℤ) : ℚ) := by
    push_cast
    rfl
  rw [hq] at h
  rw [h.num, h.denom, Rat.num_div_eq_of_coprime hpos hcoprime, Rat.den_div_eq_of_coprime hpos hcoprime]
  exact ⟨rfl, rfl⟩

namespace Formula
variable {f g k : Formula} {v : Variable} {n j d : Nat} {log log' : Log} {w : Weight} {a : Adjustment}

private theorem Removal.determines (h : Removal f v w g d) (hw : w.IsLowest (n / 2 ^ j)) (hn : Odd n) (hj : 2 ≤ j) :
    ∃ xs added, Grows f g xs added ∧ xs.length = j ∧ (v ∉ xs → Determines (added.flatMap Line.clauses) xs v n) := by
  obtain ⟨hnum, hdenom⟩ := hw.of_odd hn
  have hfour : 2 ^ 2 ≤ 2 ^ j := Nat.pow_le_pow_right Nat.two_pos hj
  have heven : Even (2 ^ j) := (even_two).pow_of_ne_zero (by omega)
  cases h with
  | half h =>
    have htwo : w.denom.toInt = 2 := h ▸ rfl
    omega
  | certain b h hadd =>
    refine absurd hn (Nat.not_odd_iff_even.mpr ?_)
    cases b with
    | true =>
      have hequal : w.num.toInt = w.denom.toInt := congrArg Int64.toInt h
      have hn' : n = 2 ^ j := by exact_mod_cast hnum.symm.trans (hequal.trans hdenom)
      exact hn' ▸ heven
    | false =>
      have hzero : w.num.toInt = 0 := congrArg Int64.toInt h
      have hn' : n = 0 := by exact_mod_cast hnum.symm.trans hzero
      exact hn' ▸ Even.zero
  | @chains xs f₁ f₂ f₃ rest hhalf hzero hone hauxiliaries hup hrest hdown =>
    obtain ⟨hlength, added, ps, ns, hgrows, -, hclauses, hps, hns⟩ := grows_chains hauxiliaries hup hdown
    obtain ⟨hrnum, -⟩ := Weight.complement_eq_ok hrest
    have hdenom' : w.denom.toInt.toNat = 2 ^ j := by omega
    rw [hdenom', bitLength_two_pow_sub_one] at hlength
    have hle := hps.count_le
    rw [List.length_map, hlength] at hle
    refine ⟨xs, added, hgrows, hlength, fun hv => ?_⟩
    have hup' : w.num.toInt.toNat = n := by omega
    rw [hclauses]
    rw [hup'] at hps hle
    exact determines_guarded hps hns (by rw [hlength]; omega) hgrows.nodup hv

private theorem roundWeights_determines {denom : Int64} (hD : 2 ≤ denom.toInt) {rounding : Rounding}
    (h : f.roundWeights denom rounding a.var log = .ok (g, d, [a]) log') (hrat : a.rounded.rat = n / 2 ^ j)
    (hn : Odd n) (hj : 2 ≤ j) : ∃ xs added, Grows f g xs added ∧ xs.length = j ∧
      (a.var ∉ xs → Determines (added.flatMap Line.clauses) xs a.var n) := by
  obtain ⟨v, p, w⟩ := a
  cases treatment_of_roundWeights h with
  | rounded _ _ _ hpd _ hsum hp hn' hround hremove =>
    have hlowest : w.IsLowest (n / 2 ^ j) := by
      obtain ⟨m, hm, -⟩ := Weight.round_eq hpd hp (by omega) hD rounding
      have hpos : 0 < (p.round denom rounding).denom.toInt := by
        rw [hm]
        exact Int.lt_of_lt_of_le (by decide) hD
      rw [← hrat, Weight.rat_simplify hround]
      exact Weight.isLowest_simplify hpos hround
    obtain ⟨xs, added, hgrows, hlength, hdetermines⟩ :=
      (removal_of_removeRounded hremove).1.determines hlowest hn hj
    exact ⟨xs, _, (grows_addComment f _).trans hgrows, hlength, hdetermines⟩

/-- The reduction has come from `f` to `g` by a step that made this adjustment. -/
def MadeBy (denom : Int64) (rounding : Rounding) (f g : Formula) (a : Adjustment) : Prop :=
  ∃ k k' d log log', f.Accrues k ∧ k.roundWeights denom rounding a.var log = .ok (k', d, [a]) log' ∧ k'.Accrues g

private theorem madeBy_of_mem {bits : Nat} {rounding : Rounding} {r : DyadicReduction}
    (h : f.reduceDyadic bits rounding log = .ok (g, r) log') :
    ∀ a ∈ r.adjustments, a.var ∈ f.free ∧ MadeBy (.ofNat (1 <<< bits)) rounding f g a := by
  obtain ⟨-, vs, hvs, hrun⟩ := reduceDyadic_eq_ok.mp h
  obtain ⟨-, hfree⟩ := freeVariables_eq_ok hvs
  refine (Logged.foldlM_induction (fun _ (s : Formula × DyadicReduction) _ => f.Accrues s.1 ∧
    ∀ a ∈ s.2.adjustments, a.var ∈ f.free ∧ MadeBy (.ofNat (1 <<< bits)) rounding f s.1 a) ?_ ?_ hrun).2
  · rintro done v ⟨k, r'⟩ s' log₁ log₂ hmem ⟨haccrues, hdone⟩ hnext
    obtain ⟨k', e, as, hround, rfl⟩ := roundNext_eq_ok.mp hnext
    have hstep := accrues_roundWeights hround
    have hv : v ∈ f.free := hfree ▸ List.mem_toFinset.mpr (hmem.subset (by simp))
    refine ⟨haccrues.trans hstep, List.forall_mem_append.mpr ⟨fun a ha => ?_, fun a ha => ?_⟩⟩
    · obtain ⟨hvar, m, m', d, log₃, log₄, hm, hm', hlater⟩ := hdone a ha
      exact ⟨hvar, m, m', d, log₃, log₄, hm, hm', hlater.trans hstep⟩
    · cases treatment_of_roundWeights hround with
      | unweighted => cases ha
      | skipped => cases ha
      | rounded =>
        cases List.mem_singleton.mp ha
        exact ⟨hv, k, k', e, log₁, log₂, haccrues, hround, .refl k'⟩
  · exact ⟨.refl f, List.forall_mem_nil _⟩

/-- Whenever the reduction rounds a weight to an odd number over four or a larger power of two, it adds as many variables
as there are digits. Their numbers are the next ones. Unless the variable of the weight has one of these numbers itself,
they determine it: one value fits each assignment of theirs, and the odd number says for how many this is true. If the
support is in range, the new variables did not matter before, so the variable of the weight is none of them. -/
theorem reduceDyadic_determines {bits : Nat} {rounding : Rounding} {r : DyadicReduction}
    (h : f.reduceDyadic bits rounding log = .ok (g, r) log') (ha : a ∈ r.adjustments)
    (hrat : a.rounded.rat = n / 2 ^ j) (hn : Odd n) (hj : 2 ≤ j) :
    a.var ∈ f.free ∧ ∃ k k' d log₁ log₂ xs added, f.Accrues k ∧
      k.roundWeights (.ofNat (1 <<< bits)) rounding a.var log₁ = .ok (k', d, [a]) log₂ ∧ k'.Accrues g ∧
      Grows k k' xs added ∧ xs.length = j ∧
      (a.var ∉ xs → Determines (added.flatMap Line.clauses) xs a.var n) ∧
      (f.SupportInRange → a.var ∉ xs ∧ Disjoint k.free xs.toFinset) := by
  obtain ⟨hbits, -⟩ := reduceDyadic_eq_ok.mp h
  obtain ⟨hfree, k, k', d, log₁, log₂, hbefore, hround, hafter⟩ := madeBy_of_mem h a ha
  obtain ⟨xs, added, hgrows, hlength, hdetermines⟩ :=
    roundWeights_determines (two_le_denominator hbits) hround hrat hn hj
  refine ⟨hfree, k, k', d, log₁, log₂, xs, added, hbefore, hround, hafter, hgrows, hlength, hdetermines, fun hr => ?_⟩
  refine ⟨fun hx => ?_, hgrows.disjoint_free (hbefore.supportInRange hr)⟩
  have hle := hr.number_le hfree
  have hlt := (hgrows.number_of_mem hx).1
  obtain ⟨ys, _, hys, -⟩ := hbefore
  have hcount := hys.variableCount
  omega

theorem reduceDyadic_determines_biased : ∃ g log,
    biased.reduceDyadic 2 .down #[] = .ok (g, ⟨8, [⟨.one, ⟨1, 3⟩, ⟨1, 4⟩⟩]⟩) log ∧ biased.SupportInRange ∧
    ∃ k k' xs added, biased.Accrues k ∧ k'.Accrues g ∧ Grows k k' xs added ∧ xs.length = 2 ∧
      Determines (added.flatMap Line.clauses) xs .one 1 := by
  obtain ⟨g, log, hreduce⟩ : ∃ g log, biased.reduceDyadic 2 .down #[] =
      .ok (g, ⟨8, [⟨.one, ⟨1, 3⟩, ⟨1, 4⟩⟩]⟩) log := ⟨_, _, rfl⟩
  have hr : biased.SupportInRange := by decide
  have hrat : (⟨1, 4⟩ : Weight).rat = (1 : ℕ) / 2 ^ 2 := by decide +kernel
  obtain ⟨-, k, k', d, log₁, log₂, xs, added, hbefore, -, hafter, hgrows, hlength, hdetermines, hnew⟩ :=
    reduceDyadic_determines hreduce (List.mem_singleton_self _) hrat odd_one (Nat.le_refl 2)
  exact ⟨g, log, hreduce, hr, k, k', xs, added, hbefore, hafter, hgrows, hlength, hdetermines (hnew hr).1⟩

/-- A text with a weighted variable that its second header does not announce any more. -/
def retractedSource : Source :=
  { content := Text.Utf8.encode "p cnf 3 0\nc ind 3 0\nw 3 1/4\nw -3 3/4\np cnf 2 0\n".toList }

/-- The variable of the weight is the first of its own auxiliary variables then, and both values of it fit where all are
true. So three projected models are counted, not four. -/
theorem reduceDyadic_retracted : ∃ f log g log', parse retractedSource .detect #[] = .ok f log ∧
    f.body.toList = [.comment "detected weight format: mc20".toList] ∧
    f.reduceDyadic 2 .down log = .ok (g, ⟨4, [⟨⟨2, by decide⟩, ⟨1, 4⟩, ⟨1, 4⟩⟩]⟩) log' ∧ g.count = .ok 3 ∧
    ¬ ∀ t : Valuation, ∃! b,
      Valuation.satisfies (Function.update t ⟨2, by decide⟩ b) (g.body.toList.flatMap Line.clauses) = true := by
  obtain ⟨f, log, hparse, hbody, hreduced⟩ := parse_of_reads (rfl : retractedSource.ending = .endOfInput) .detect
    (fun f log => f.body.toList = [.comment "detected weight format: mc20".toList] ∧
      gives (fun s _ => s.2 = ⟨4, [⟨⟨2, by decide⟩, ⟨1, 4⟩, ⟨1, 4⟩⟩]⟩ ∧ s.1.count = .ok 3 ∧
        s.1.body.toList.flatMap Line.clauses = [[⟨⟨2, by decide⟩, false⟩, ⟨⟨2, by decide⟩, true⟩],
          [⟨⟨2, by decide⟩, false⟩, ⟨⟨3, by decide⟩, true⟩],
          [⟨⟨2, by decide⟩, true⟩, ⟨⟨2, by decide⟩, false⟩, ⟨⟨3, by decide⟩, false⟩]])
        (f.reduceDyadic 2 .down log) = true) (by decide +kernel)
  obtain ⟨⟨g, r⟩, log', hreduce, rfl, hcount, hclauses⟩ := exists_of_gives hreduced
  refine ⟨f, log, g, log', hparse, hbody, hreduce, hcount, fun hone => ?_⟩
  obtain ⟨_, -, hunique⟩ := hone fun _ => true
  rw [hclauses] at hunique
  exact Bool.false_ne_true ((hunique false (by decide)).trans (hunique true (by decide)).symm)

end Formula
end WeightedCnf

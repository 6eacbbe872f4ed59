import Mathlib.Algebra.Order.BigOperators.GroupWithZero.Finset
import Mathlib.Algebra.Order.BigOperators.Ring.Finset
import WeightedCnf.Proofs.DyadicReduction

/-! The error factors of the dyadic reduction are sound. They hold for every single weight of a model, and
products and sums keep them. -/
namespace WeightedCnf

namespace Adjustment
variable {a : Adjustment}

/-- By which factors at most the weights of one variable are off. -/
def bounds (a : Adjustment) : ℚ × ℚ := DyadicReduction.widen (1, 1) a

private theorem widen_eq (bounds : ℚ × ℚ) (a : Adjustment) :
    DyadicReduction.widen bounds a = (bounds.1 * a.bounds.1, bounds.2 * a.bounds.2) := by
  unfold Adjustment.bounds DyadicReduction.widen
  cases a.original.toRat? with
  | none => simp
  | some real =>
    cases a.rounded.toRat? with
    | none => simp
    | some rounded =>
      dsimp only
      split
      · simp
      · split <;> simp

theorem foldl_widen (as : List Adjustment) (bounds : ℚ × ℚ) :
    as.foldl DyadicReduction.widen bounds =
      (bounds.1 * (as.map fun a => a.bounds.1).prod, bounds.2 * (as.map fun a => a.bounds.2).prod) := by
  induction as generalizing bounds with
  | nil => simp
  | cons a as ih => rw [List.foldl_cons, ih, widen_eq, List.map_cons, List.map_cons, List.prod_cons,
      List.prod_cons, mul_assoc, mul_assoc]

end Adjustment

namespace Formula
variable {f : Formula} {a : Adjustment}

/-- The factors of an adjustment are around one, and between the rounded weights and the true ones. -/
structure AdjustsWithin (f : Formula) (a : Adjustment) : Prop where
  nonneg : 0 ≤ a.bounds.1
  le_one : a.bounds.1 ≤ 1
  one_le : 1 ≤ a.bounds.2
  factor_nonneg : ∀ b, 0 ≤ a.factor b
  lower : ∀ b, a.bounds.1 * a.factor b ≤ (f.weight ⟨a.var, b⟩).rat
  upper : ∀ b, (f.weight ⟨a.var, b⟩).rat ≤ a.bounds.2 * a.factor b

/-- One weight shrinks from `t` to `s` and another one grows from `u` to `w`. -/
private theorem ratios_within {s t u w : ℚ} (hs : 0 ≤ s) (hst : s ≤ t) (ht : 0 < t) (hu : 0 < u) (huw : u ≤ w) :
    (0 ≤ s / t ∧ s / t ≤ 1 ∧ 1 ≤ w / u) ∧ (s / t * t ≤ s ∧ s / t * u ≤ w) ∧
      s ≤ w / u * t ∧ w ≤ w / u * u := by
  have hle : s / t ≤ 1 := (div_le_one ht).mpr hst
  have hge : 1 ≤ w / u := (one_le_div hu).mpr huw
  refine ⟨⟨div_nonneg hs ht.le, hle, hge⟩, ⟨(div_mul_cancel₀ s ht.ne').le, ?_⟩, ?_,
    (div_mul_cancel₀ w hu.ne').ge⟩
  · exact (mul_le_of_le_one_left hu.le hle).trans huw
  · exact hst.trans (le_mul_of_one_le_left ht.le hge)

private theorem Adjusts.factor_nonneg (h : f.Adjusts a) (b : Bool) : 0 ≤ a.factor b := by
  cases b with
  | true => exact h.rounded_nonneg
  | false => exact sub_nonneg.mpr h.rounded_le_one

private theorem adjustsWithin_of_bounds {lower upper : ℚ} (hbounds : a.bounds = (lower, upper)) (hnonneg : 0 ≤ lower)
    (hle : lower ≤ 1) (hge : 1 ≤ upper) (hfactor : ∀ b, 0 ≤ a.factor b)
    (hlower : ∀ b, lower * a.factor b ≤ (f.weight ⟨a.var, b⟩).rat)
    (hupper : ∀ b, (f.weight ⟨a.var, b⟩).rat ≤ upper * a.factor b) : f.AdjustsWithin a := by
  have hl : a.bounds.1 = lower := congrArg Prod.fst hbounds
  have hu : a.bounds.2 = upper := congrArg Prod.snd hbounds
  subst hl hu
  exact ⟨hnonneg, hle, hge, hfactor, hlower, hupper⟩

private theorem Adjusts.within (h : f.Adjusts a) : f.AdjustsWithin a := by
  have hbounds : a.bounds =
      if (f.weight a.var.positive).rat = a.rounded.rat ∨ a.rounded.rat = 0 ∨ a.rounded.rat = 1 then (1, 1)
      else if a.rounded.rat < (f.weight a.var.positive).rat then
        ((1 - (f.weight a.var.positive).rat) / (1 - a.rounded.rat),
          (f.weight a.var.positive).rat / a.rounded.rat)
      else ((f.weight a.var.positive).rat / a.rounded.rat,
        (1 - (f.weight a.var.positive).rat) / (1 - a.rounded.rat)) := by
    rw [Adjustment.bounds, DyadicReduction.widen, h.original, h.rounded]
    dsimp only
    split
    · rfl
    · split <;> simp only [one_mul]
  have hfalse : (f.weight ⟨a.var, false⟩).rat = 1 - (f.weight a.var.positive).rat := h.complement
  have hp0 := h.nonneg
  have hp1 := h.le_one
  have hq0 := h.rounded_nonneg
  have hq1 := h.rounded_le_one
  by_cases hsame : (f.weight a.var.positive).rat = a.rounded.rat ∨ a.rounded.rat = 0 ∨ a.rounded.rat = 1
  · have heq : (f.weight a.var.positive).rat = a.rounded.rat := by
      rcases hsame with he | he | he
      · exact he
      · rw [h.zero he, he]
      · rw [h.one he, he]
    have hfactor : ∀ b, (f.weight ⟨a.var, b⟩).rat = a.factor b := by
      intro b
      cases b with
      | true => exact heq
      | false => exact hfalse.trans (by rw [heq]; rfl)
    exact adjustsWithin_of_bounds (hbounds.trans (if_pos hsame)) zero_le_one le_rfl le_rfl h.factor_nonneg
      (fun b => by rw [one_mul, hfactor]) fun b => by rw [one_mul, hfactor]
  rw [if_neg hsame] at hbounds
  rw [not_or, not_or] at hsame
  obtain ⟨hne, hne0, hne1⟩ := hsame
  have hq0' : 0 < a.rounded.rat := lt_of_le_of_ne hq0 (Ne.symm hne0)
  have hq1' : 0 < 1 - a.rounded.rat := sub_pos.mpr (lt_of_le_of_ne hq1 hne1)
  by_cases hlt : a.rounded.rat < (f.weight a.var.positive).rat
  · obtain ⟨⟨h0, h1, h2⟩, ⟨hl, hl'⟩, hu, hu'⟩ := ratios_within (sub_nonneg.mpr hp1)
      (sub_le_sub_left hlt.le 1) hq1' hq0' hlt.le
    exact adjustsWithin_of_bounds (hbounds.trans (if_pos hlt)) h0 h1 h2 h.factor_nonneg
      (Bool.forall_bool.mpr ⟨hfalse ▸ hl, hl'⟩) (Bool.forall_bool.mpr ⟨hfalse ▸ hu, hu'⟩)
  · have hge := not_lt.mp hlt
    obtain ⟨⟨h0, h1, h2⟩, ⟨hl, hl'⟩, hu, hu'⟩ := ratios_within hp0 hge hq0' hq1' (sub_le_sub_left hge 1)
    exact adjustsWithin_of_bounds (hbounds.trans (if_neg hlt)) h0 h1 h2 h.factor_nonneg
      (Bool.forall_bool.mpr ⟨hfalse ▸ hl', hl⟩) (Bool.forall_bool.mpr ⟨hfalse ▸ hu', hu⟩)

/-- What the adjustment of a variable says, or one without it. -/
private def adjusted (as : List Adjustment) (q : Adjustment → ℚ) (v : Variable) : ℚ :=
  ((as.find? (·.var = v)).map q).getD 1

private theorem adjusted_cons (as : List Adjustment) (q : Adjustment → ℚ) (v : Variable)
    (h : a.var ∉ as.map Adjustment.var) :
    adjusted (a :: as) q v = (if v = a.var then q a else 1) * adjusted as q v := by
  unfold adjusted
  by_cases hv : v = a.var
  · subst hv
    rw [List.find?_cons_of_pos (p := fun u : Adjustment => u.var = a.var) (decide_eq_true rfl), if_pos rfl,
      find?_eq_none h]
    exact (mul_one _).symm
  · rw [List.find?_cons_of_neg (by simpa using Ne.symm hv), if_neg hv, one_mul]

private theorem prod_adjusted {as : List Adjustment} (q : Adjustment → ℚ) {s : Finset Variable}
    (hnodup : (as.map Adjustment.var).Nodup) (hs : ∀ a ∈ as, a.var ∈ s) :
    ∏ v ∈ s, adjusted as q v = (as.map q).prod := by
  induction as with
  | nil => exact Finset.prod_const_one
  | cons a as ih =>
    rw [List.map_cons, List.nodup_cons] at hnodup
    rw [List.forall_mem_cons] at hs
    simp only [adjusted_cons as q _ hnodup.1]
    rw [Finset.prod_mul_distrib, ih hnodup.2 hs.2, Finset.prod_ite_eq', if_pos hs.1, List.map_cons,
      List.prod_cons]

section Model
variable {as : List Adjustment} (has : ∀ a ∈ as, f.AdjustsWithin a)
include has

private theorem dyadicFactor_within (v : Variable) (b : Bool) :
    0 ≤ f.dyadicFactor as Adjustment.factor v b ∧
      adjusted as (·.bounds.1) v * f.dyadicFactor as Adjustment.factor v b ≤
        f.dyadicFactor as (fun a b => (f.weight ⟨a.var, b⟩).rat) v b ∧
      f.dyadicFactor as (fun a b => (f.weight ⟨a.var, b⟩).rat) v b ≤
        adjusted as (·.bounds.2) v * f.dyadicFactor as Adjustment.factor v b := by
  unfold adjusted dyadicFactor
  cases hfind : as.find? (·.var = v) with
  | none =>
    refine ⟨?_, (one_mul _).le, (one_mul _).ge⟩
    dsimp only
    split <;> norm_num
  | some a =>
    have ha := has a (List.mem_of_find?_eq_some hfind)
    exact ⟨ha.factor_nonneg b, ha.lower b, ha.upper b⟩

private theorem adjusted_within (v : Variable) :
    0 ≤ adjusted as (·.bounds.1) v ∧ adjusted as (·.bounds.1) v ≤ 1 ∧ 1 ≤ adjusted as (·.bounds.2) v := by
  unfold adjusted
  cases hfind : as.find? (·.var = v) with
  | none => exact ⟨zero_le_one, le_rfl, le_rfl⟩
  | some a =>
    have ha := has a (List.mem_of_find?_eq_some hfind)
    exact ⟨ha.nonneg, ha.le_one, ha.one_le⟩

private theorem prod_adjusted_within (s : Finset Variable) :
    0 ≤ ∏ v ∈ s, adjusted as (·.bounds.1) v ∧ ∏ v ∈ s, adjusted as (·.bounds.1) v ≤ 1 ∧
      1 ≤ ∏ v ∈ s, adjusted as (·.bounds.2) v := by
  have h := adjusted_within has
  exact ⟨Finset.prod_nonneg fun v _ => (h v).1, Finset.prod_le_one (fun v _ => (h v).1) fun v _ => (h v).2.1,
    Finset.one_le_prod fun v _ => (h v).2.2⟩

/-- The bounds of the single variables bound the weight of a model, and so their sum. -/
private theorem dyadicSum_within (cnf : Cnf) :
    (∏ v ∈ f.free, adjusted as (·.bounds.1) v) * f.dyadicSum cnf as Adjustment.factor ≤
        f.dyadicSum cnf as (fun a b => (f.weight ⟨a.var, b⟩).rat) ∧
      f.dyadicSum cnf as (fun a b => (f.weight ⟨a.var, b⟩).rat) ≤
        (∏ v ∈ f.free, adjusted as (·.bounds.2) v) * f.dyadicSum cnf as Adjustment.factor := by
  have hfactor := dyadicFactor_within has
  have hadjusted := adjusted_within has
  have hlow : ∀ v b, 0 ≤ adjusted as (·.bounds.1) v * f.dyadicFactor as Adjustment.factor v b := fun v b =>
    mul_nonneg (hadjusted v).1 (hfactor v b).1
  unfold dyadicSum
  rw [Finset.mul_sum, Finset.mul_sum]
  constructor <;> refine Finset.sum_le_sum fun m _ => ?_ <;> rw [← Finset.prod_mul_distrib]
  · exact Finset.prod_le_prod (fun v _ => hlow v (m v)) fun v _ => (hfactor v (m v)).2.1
  · exact Finset.prod_le_prod (fun v _ => (hlow v (m v)).trans (hfactor v (m v)).2.1)
      fun v _ => (hfactor v (m v)).2.2

end Model

/-- The weighted count, with the true weights in place of the rounded ones, is between the two bounds times the
count of the reduced formula divided by the denominator. -/
theorem reduceDyadic_within_bounds {g : Formula} {log log' : Log} {cnf : Cnf} {bits : Nat} {rounding : Rounding}
    {r : DyadicReduction} (hcnf : f.toCnf = .ok cnf) (hr : f.SupportInRange)
    (h : f.reduceDyadic bits rounding log = .ok (g, r) log') :
    0 ≤ r.bounds.1 ∧ r.bounds.1 ≤ 1 ∧ 1 ≤ r.bounds.2 ∧ ∃ cnf', g.toCnf = .ok cnf' ∧ 0 < r.denominator ∧
      r.bounds.1 * ((cnf'.models g.free).card / r.denominator) ≤
        f.dyadicSum cnf r.adjustments (fun a b => (f.weight ⟨a.var, b⟩).rat) ∧
      f.dyadicSum cnf r.adjustments (fun a b => (f.weight ⟨a.var, b⟩).rat) ≤
        r.bounds.2 * ((cnf'.models g.free).card / r.denominator) := by
  obtain ⟨vs, hnodup, hfree, hrun⟩ := dyadicRun hr h
  obtain ⟨cnf', hg, hcard⟩ := hrun.card_models hnodup hfree hcnf
  have hwithin : ∀ a ∈ r.adjustments, f.AdjustsWithin a := fun a ha => (hrun.adjusts a ha).within
  have hbounds : r.bounds = (∏ v ∈ f.free, adjusted r.adjustments (·.bounds.1) v,
      ∏ v ∈ f.free, adjusted r.adjustments (·.bounds.2) v) := by
    have hvars := hrun.vars.nodup hnodup
    have hmem := fun a ha => hrun.mem_free (a := a) hfree ha
    rw [prod_adjusted _ hvars hmem, prod_adjusted _ hvars hmem, DyadicReduction.bounds,
      Adjustment.foldl_widen, one_mul, one_mul]
  obtain ⟨h0, h1, h2⟩ := prod_adjusted_within hwithin f.free
  rw [hbounds]
  refine ⟨h0, h1, h2, cnf', hg, hrun.pos, ?_⟩
  rw [hcard]
  exact dyadicSum_within hwithin cnf

theorem reduceDyadic_within_bounds_biased :
    ∃ cnf g log, biased.toCnf = .ok cnf ∧
      biased.reduceDyadic 2 .down #[] = .ok (g, ⟨8, [⟨⟨0, by decide⟩, ⟨1, 3⟩, ⟨1, 4⟩⟩]⟩) log ∧
      ∃ cnf', g.toCnf = .ok cnf' ∧ 8 / 9 * (((cnf'.models g.free).card : ℚ) / (8 : ℕ)) ≤
        biased.dyadicSum cnf [⟨⟨0, by decide⟩, ⟨1, 3⟩, ⟨1, 4⟩⟩] (fun a b => (biased.weight ⟨a.var, b⟩).rat) := by
  obtain ⟨cnf, hcnf⟩ : ∃ cnf, biased.toCnf = .ok cnf := ⟨_, rfl⟩
  obtain ⟨g, log, hreduce⟩ : ∃ g log, biased.reduceDyadic 2 .down #[] =
      .ok (g, ⟨8, [⟨⟨0, by decide⟩, ⟨1, 3⟩, ⟨1, 4⟩⟩]⟩) log := ⟨_, _, rfl⟩
  obtain ⟨-, -, -, cnf', hg, -, hlow, -⟩ := reduceDyadic_within_bounds hcnf (by decide) hreduce
  have hbounds : (DyadicReduction.bounds ⟨8, [⟨⟨0, by decide⟩, ⟨1, 3⟩, ⟨1, 4⟩⟩]⟩).1 = 8 / 9 := by decide +kernel
  rw [hbounds] at hlow
  exact ⟨cnf, g, log, hcnf, hreduce, cnf', hg, hlow⟩

end Formula
end WeightedCnf

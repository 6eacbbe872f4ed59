import Mathlib.Algebra.Order.Ring.Rat
import Mathlib.Tactic.FieldSimp
import WeightedCnf.Proofs.Rescaling
import WeightedCnf.Proofs.Weights
import WeightedCnf.Reduction.Exact

/-! The exact reduction keeps the weighted count: the reduced formula has as many projected models as the
weights of the formula add up to, times the denominator. -/
namespace WeightedCnf
open WeightedCnf.Valuation

namespace Shares

def gcd (s : Shares) : Nat :=
  Nat.gcd (Int.gcd s.positive s.negative) s.denominator.natAbs

/-- All parts are divided by their greatest common divisor, and the denominator becomes positive. -/
theorem normalize_mul {s : Shares} (hd : s.denominator ≠ 0) :
    ∃ c : Int, c ≠ 0 ∧ s.positive = c * s.normalize.positive ∧ s.negative = c * s.normalize.negative ∧
      s.denominator = c * s.normalize.denominator ∧ 0 < s.normalize.denominator ∧ c.natAbs = s.gcd := by
  obtain ⟨positive, negative, denominator⟩ := s
  dsimp only at hd
  have hg : 0 < Nat.gcd (Int.gcd positive negative) denominator.natAbs :=
    Nat.gcd_pos_of_pos_right _ (Int.natAbs_pos.mpr hd)
  have hpn : (Nat.gcd (Int.gcd positive negative) denominator.natAbs : Int) ∣ (Int.gcd positive negative : Int) :=
    Int.natCast_dvd_natCast.mpr (Nat.gcd_dvd_left _ _)
  have hp := hpn.trans (Int.gcd_dvd_left positive negative)
  have hn := hpn.trans (Int.gcd_dvd_right positive negative)
  have hd' : (Nat.gcd (Int.gcd positive negative) denominator.natAbs : Int) ∣ denominator :=
    Int.natCast_dvd.mpr (Nat.gcd_dvd_right _ _)
  unfold normalize gcd
  dsimp only
  generalize Nat.gcd (Int.gcd positive negative) denominator.natAbs = n at *
  split
  · rename_i hneg
    refine ⟨-n, by omega, (Int.mul_ediv_cancel' (Int.neg_dvd.mpr hp)).symm,
      (Int.mul_ediv_cancel' (Int.neg_dvd.mpr hn)).symm, (Int.mul_ediv_cancel' (Int.neg_dvd.mpr hd')).symm, ?_,
      by rw [Int.natAbs_neg, Int.natAbs_natCast]⟩
    obtain ⟨k, rfl⟩ := Int.neg_dvd.mpr hd'
    rw [Int.mul_ediv_cancel_left _ (by omega)]
    exact pos_of_mul_neg_right hneg (by omega)
  · rename_i hpos
    refine ⟨n, by omega, (Int.mul_ediv_cancel' hp).symm, (Int.mul_ediv_cancel' hn).symm,
      (Int.mul_ediv_cancel' hd').symm, ?_, Int.natAbs_natCast n⟩
    obtain ⟨k, rfl⟩ := hd'
    rw [Int.mul_ediv_cancel_left _ (by omega)]
    exact pos_of_mul_pos_right (lt_of_le_of_ne (not_lt.mp hpos) hd.symm) (by omega)

theorem ofWeights_ratio {positive negative : Weight} (hp : positive.isValid = true)
    (hn : negative.isValid = true) : (ofWeights positive negative).denominator ≠ 0 ∧
      positive.rat = (ofWeights positive negative).positive / (ofWeights positive negative).denominator ∧
      negative.rat = (ofWeights positive negative).negative / (ofWeights positive negative).denominator := by
  rw [Weight.isValid_iff] at hp hn
  have hp' : (positive.denom.toInt : ℚ) ≠ 0 := Int.cast_ne_zero.mpr hp
  have hn' : (negative.denom.toInt : ℚ) ≠ 0 := Int.cast_ne_zero.mpr hn
  unfold ofWeights Weight.rat
  split
  · rename_i h
    refine ⟨hp, rfl, ?_⟩
    rw [h]
  · refine ⟨mul_ne_zero hp hn, ?_, ?_⟩
    · push_cast
      rw [mul_div_mul_right _ _ hn']
    · push_cast
      rw [mul_comm (positive.denom.toInt : ℚ), mul_div_mul_right _ _ hp']

private theorem ratio {positive negative : Weight} (hp : positive.isValid = true) (hn : negative.isValid = true) :
    0 < (ofWeights positive negative).normalize.denominator ∧
      (ofWeights positive negative).normalize.denominator * positive.rat =
        (ofWeights positive negative).normalize.positive ∧
      (ofWeights positive negative).normalize.denominator * negative.rat =
        (ofWeights positive negative).normalize.negative := by
  obtain ⟨hd, hpos, hneg⟩ := ofWeights_ratio hp hn
  obtain ⟨c, hc, hcp, hcn, hcd, hdpos, -⟩ := normalize_mul hd
  have hc' : (c : ℚ) ≠ 0 := Int.cast_ne_zero.mpr hc
  have hd' : ((ofWeights positive negative).normalize.denominator : ℚ) ≠ 0 := Int.cast_ne_zero.mpr hdpos.ne'
  refine ⟨hdpos, ?_, ?_⟩
  · rw [hpos, hcp, hcd]
    push_cast
    field_simp
  · rw [hneg, hcn, hcd]
    push_cast
    field_simp

private theorem gcd_normalize {s : Shares} (hd : s.denominator ≠ 0) : s.normalize.gcd = 1 := by
  obtain ⟨c, hc, hcp, hcn, hcd, -, hgcd⟩ := normalize_mul hd
  have hmul : s.gcd = c.natAbs * s.normalize.gcd := by
    rw [gcd, gcd, hcp, hcn, hcd, Int.gcd_mul_left, Int.natAbs_mul, Nat.gcd_mul_left]
  rw [← hgcd] at hmul
  exact (Nat.mul_eq_left (Int.natAbs_ne_zero.mpr hc)).mp hmul.symm

/-- Of two proportional triples without a common divisor, the denominator of one divides that of the other. -/
private theorem denominator_dvd {s t : Shares} (hs : s.gcd = 1)
    (hp : s.positive * t.denominator = t.positive * s.denominator)
    (hn : s.negative * t.denominator = t.negative * s.denominator) : s.denominator ∣ t.denominator := by
  have hpn : s.denominator.natAbs ∣ Int.gcd s.positive s.negative * t.denominator.natAbs := by
    rw [← Int.gcd_mul_right]
    exact Nat.dvd_gcd (Int.natAbs_dvd_natAbs.mpr (Dvd.intro_left _ hp.symm))
      (Int.natAbs_dvd_natAbs.mpr (Dvd.intro_left _ hn.symm))
  have hcoprime : Nat.Coprime (Int.gcd s.positive s.negative) s.denominator.natAbs := hs
  exact Int.natAbs_dvd_natAbs.mp (hcoprime.symm.dvd_of_dvd_mul_left hpn)

/-- The shares depend on the values of the weights only. -/
theorem normalize_congr {p n p' n' : Weight} (hp : p.isValid = true) (hn : n.isValid = true)
    (hp' : p'.isValid = true) (hn' : n'.isValid = true) (hpp' : p'.rat = p.rat) (hnn' : n'.rat = n.rat) :
    (ofWeights p' n').normalize = (ofWeights p n).normalize := by
  obtain ⟨hdpos, hpositive, hnegative⟩ := ratio hp hn
  obtain ⟨hdpos', hpositive', hnegative'⟩ := ratio hp' hn'
  have hgcd := gcd_normalize (ofWeights_ratio hp hn).1
  have hgcd' := gcd_normalize (ofWeights_ratio hp' hn').1
  generalize (ofWeights p n).normalize = s at *
  generalize (ofWeights p' n').normalize = t at *
  have hcross : s.positive * t.denominator = t.positive * s.denominator := by
    have h : (s.positive * t.denominator : ℚ) = t.positive * s.denominator := by
      rw [← hpositive, ← hpositive', hpp']
      ring
    exact_mod_cast h
  have hcross' : s.negative * t.denominator = t.negative * s.denominator := by
    have h : (s.negative * t.denominator : ℚ) = t.negative * s.denominator := by
      rw [← hnegative, ← hnegative', hnn']
      ring
    exact_mod_cast h
  have hd : s.denominator = t.denominator :=
    Int.dvd_antisymm hdpos.le hdpos'.le (denominator_dvd hgcd hcross hcross')
      (denominator_dvd hgcd' hcross.symm hcross'.symm)
  rw [hd] at hcross hcross'
  obtain ⟨_, _, _⟩ := s
  obtain ⟨_, _, _⟩ := t
  rw [mk.injEq]
  exact ⟨(Int.eq_of_mul_eq_mul_right hdpos'.ne' hcross).symm,
    (Int.eq_of_mul_eq_mul_right hdpos'.ne' hcross').symm, hd.symm⟩

end Shares

theorem lt_two_pow_bitLength (n : Nat) : n < 2 ^ bitLength n := by
  unfold bitLength
  split
  · omega
  · exact Nat.lt_log2_self

namespace Formula
variable {f g : Formula} {v : Variable} {xs : List Variable} {d : Nat} {log log' : Log}

/-- The exact reduction leaves a variable alone when one of its weights has a zero denominator or is
negative. -/
def IsSkipped (f : Formula) (v : Variable) : Prop :=
  ∃ b, (f.weight ⟨v, b⟩).denom = 0 ∨ (f.weight ⟨v, b⟩).rat < 0

instance (f : Formula) (v : Variable) : Decidable (f.IsSkipped v) :=
  inferInstanceAs (Decidable (∃ b, (f.weight ⟨v, b⟩).denom = 0 ∨ (f.weight ⟨v, b⟩).rat < 0))

/-- What a value of a variable contributes to the weight of a model: the weight of the literal that is true,
or nothing for a variable that is left alone. -/
def exactFactor (f : Formula) (v : Variable) (b : Bool) : ℚ :=
  if f.IsSkipped v then 1 else (f.weight ⟨v, b⟩).rat

private theorem isSkipped_iff : f.IsSkipped v ↔
    ((f.weight v.positive).isValid = false ∨ (f.weight v.negative).isValid = false) ∨
      (f.weight v.positive).rat < 0 ∨ (f.weight v.negative).rat < 0 := by
  rw [IsSkipped, Bool.exists_bool, Weight.isValid_eq_false_iff, Weight.isValid_eq_false_iff]
  change (_ ∨ (f.weight v.negative).rat < 0) ∨ _ ↔ _
  tauto

theorem isValid_of_not_skipped (h : ¬ f.IsSkipped v) :
    (f.weight v.positive).isValid = true ∧ (f.weight v.negative).isValid = true := by
  have hvalid := not_or.mp (not_or.mp (isSkipped_iff.not.mp h)).1
  rwa [Bool.not_eq_false, Bool.not_eq_false] at hvalid

theorem addShare_eq_ok {guard : Literal} {ls : List Literal} {count : Nat}
    (h : f.addShare guard ls count = .ok g) :
    ∃ cs, Threshold ls count cs ∧ Grows f g [] ((cs.map (guard :: ·)).map .clause) := by
  unfold addShare at h
  split at h
  · subst count
    exact ⟨_, .zero ls, grows_addClause h⟩
  · obtain ⟨chain, hchain, hgrows⟩ := grows_addGuardedChain h
    exact ⟨chain, Chain.threshold hchain, hgrows⟩

/-- The shares are to their denominator as the weights are to one. -/
private theorem shares_ratio (hp : (f.weight v.positive).isValid = true)
    (hn : (f.weight v.negative).isValid = true) : 0 < (f.shares v).denominator ∧
      (f.shares v).denominator * (f.weight v.positive).rat = (f.shares v).positive ∧
      (f.shares v).denominator * (f.weight v.negative).rat = (f.shares v).negative :=
  Shares.ratio hp hn

theorem isSkipped_iff_shares (hp : (f.weight v.positive).isValid = true)
    (hn : (f.weight v.negative).isValid = true) :
    f.IsSkipped v ↔ (f.shares v).positive < 0 ∨ (f.shares v).negative < 0 := by
  obtain ⟨hdpos, hpos, hneg⟩ := shares_ratio hp hn
  have hdpos' : (0 : ℚ) < (f.shares v).denominator := Int.cast_pos.mpr hdpos
  have hpsign : (f.weight v.positive).rat < 0 ↔ (f.shares v).positive < 0 := by
    rw [← not_le, ← not_le, not_iff_not, ← Int.cast_nonneg_iff (R := ℚ), ← hpos,
      mul_nonneg_iff_of_pos_left hdpos']
  have hnsign : (f.weight v.negative).rat < 0 ↔ (f.shares v).negative < 0 := by
    rw [← not_le, ← not_le, not_iff_not, ← Int.cast_nonneg_iff (R := ℚ), ← hneg,
      mul_nonneg_iff_of_pos_left hdpos']
  rw [isSkipped_iff, hp, hn, hpsign, hnsign]
  simp

/-- A variable stays as it is when it is left alone or both of its weights are one. -/
def StaysAsIs (f : Formula) (v : Variable) : Prop :=
  f.IsSkipped v ∨ f.shares v = ⟨1, 1, 1⟩

instance (f : Formula) (v : Variable) : Decidable (f.StaysAsIs v) :=
  inferInstanceAs (Decidable (_ ∨ _))

theorem removeWeights_of_stays (h : f.StaysAsIs v) (log : Log) : ∃ log', f.removeWeights v log = .ok (f, 1) log' := by
  unfold removeWeights
  dsimp only
  split
  · exact ⟨_, rfl⟩
  rename_i hvalid
  obtain ⟨hp, hn⟩ : (f.weight v.positive).isValid = true ∧ (f.weight v.negative).isValid = true := by
    simpa using hvalid
  split
  · exact ⟨_, rfl⟩
  rename_i hnonneg
  rw [if_pos (h.resolve_left ((isSkipped_iff_shares hp hn).not.mpr hnonneg))]
  exact ⟨_, rfl⟩

def auxiliaryCount (f : Formula) (v : Variable) : Nat :=
  if f.StaysAsIs v then 0 else bitLength (max (f.shares v).positive.toNat (f.shares v).negative.toNat)

theorem removeWeights_of_not_stays (h : ¬ f.StaysAsIs v) : f.removeWeights v = do
    let (auxiliaries, g) ← Logged.lift (f.addAuxiliaries (f.auxiliaryCount v))
    let literals := auxiliaries.map Variable.positive
    let g ← Logged.lift (g.addShare v.negative literals (f.shares v).positive.toNat)
    let g ← Logged.lift (g.addShare v.positive literals (f.shares v).negative.toNat)
    Logged.report (.weightsRemoved v (f.weight v.positive) (f.weight v.negative) (f.auxiliaryCount v))
    return (g, (f.shares v).denominator.toNat) := by
  obtain ⟨hskip, hone⟩ := not_or.mp h
  obtain ⟨hp, hn⟩ := isValid_of_not_skipped hskip
  rw [auxiliaryCount, if_neg h]
  unfold removeWeights
  dsimp only
  rw [if_neg (by rw [hp, hn]; decide), if_neg ((isSkipped_iff_shares hp hn).not.mp hskip), if_neg hone]

private theorem exactFactor_of_stays (h : f.StaysAsIs v) (b : Bool) : f.exactFactor v b = 1 := by
  rcases h with hskip | hone
  · exact if_pos hskip
  by_cases hskip : f.IsSkipped v
  · exact if_pos hskip
  obtain ⟨hp, hn⟩ := isValid_of_not_skipped hskip
  obtain ⟨-, hpos, hneg⟩ := shares_ratio hp hn
  rw [hone] at hpos hneg
  rw [exactFactor, if_neg hskip]
  have hpone : (f.weight v.positive).rat = 1 := by simpa using hpos
  have hnone : (f.weight v.negative).rat = 1 := by simpa using hneg
  cases b with
  | true => exact hpone
  | false => exact hnone

/-- Removing the weights of one variable. -/
theorem rescales_removeWeights (hr : f.SupportInRange) (hv : v ∈ f.free)
    (h : f.removeWeights v log = .ok (g, d) log') :
    0 < d ∧ Rescales f g d fun m => f.exactFactor v (m v) := by
  by_cases hstays : f.StaysAsIs v
  · obtain ⟨_, hkeep⟩ := removeWeights_of_stays hstays log
    cases hkeep.symm.trans h
    simp only [exactFactor_of_stays hstays]
    exact ⟨Nat.one_pos, .refl hr⟩
  rw [removeWeights_of_not_stays hstays] at h
  obtain ⟨⟨xs, f₁⟩, log₁, haux, h⟩ := Logged.bind_eq_ok.mp h
  obtain ⟨f₂, log₂, htrue, h⟩ := Logged.bind_eq_ok.mp h
  obtain ⟨f₃, log₃, hfalse, h⟩ := Logged.bind_eq_ok.mp h
  obtain ⟨_, log₄, -, hret⟩ := Logged.bind_eq_ok.mp h
  cases hret
  obtain ⟨hlen, hxs⟩ := grows_addAuxiliaries (Logged.lift_eq_ok.mp haux).1
  obtain ⟨ps, hps, hgps⟩ := addShare_eq_ok (Logged.lift_eq_ok.mp htrue).1
  obtain ⟨ns, hns, hgns⟩ := addShare_eq_ok (Logged.lift_eq_ok.mp hfalse).1
  obtain ⟨added, hgrows, hadded, hclauses⟩ := hxs.exists_guarded hgps hgns
  have hvars : (xs.map Variable.positive).map Literal.var = xs := map_var_mk xs true
  obtain ⟨hskip, -⟩ := not_or.mp hstays
  obtain ⟨hp, hn⟩ := isValid_of_not_skipped hskip
  obtain ⟨hdpos, hpos, hneg⟩ := shares_ratio hp hn
  obtain ⟨hpnonneg, hnnonneg⟩ := not_or.mp ((isSkipped_iff_shares hp hn).not.mp hskip)
  refine ⟨by omega, hgrows.rescales hr hadded hv hps hns hvars hvars hclauses fun b => ?_⟩
  have hdcast : (((f.shares v).denominator.toNat : ℕ) : ℚ) = (f.shares v).denominator := by
    exact_mod_cast Int.toNat_of_nonneg hdpos.le
  have hpcast : (((f.shares v).positive.toNat : ℕ) : ℚ) = (f.shares v).positive := by
    exact_mod_cast Int.toNat_of_nonneg (not_lt.mp hpnonneg)
  have hncast : (((f.shares v).negative.toNat : ℕ) : ℚ) = (f.shares v).negative := by
    exact_mod_cast Int.toNat_of_nonneg (not_lt.mp hnnonneg)
  rw [hdcast, exactFactor, if_neg hskip]
  cases b with
  | true => exact hpos.trans hpcast.symm
  | false => exact hneg.trans hncast.symm

private theorem exactFactor_congr (h : ∀ l, g.weight l = f.weight l) (v : Variable) (b : Bool) :
    g.exactFactor v b = f.exactFactor v b := by
  have hskip : g.IsSkipped v ↔ f.IsSkipped v := by simp only [IsSkipped, h]
  rw [exactFactor, exactFactor, h]
  exact if_congr hskip rfl rfl

/-- A whole run multiplies what the single steps contribute. -/
theorem rescales_reduce (hr : f.SupportInRange) (h : f.reduce log = .ok (g, d) log') :
    0 < d ∧ Rescales f g d fun m => ∏ v ∈ f.free, f.exactFactor v (m v) := by
  obtain ⟨vs, log₁, hvs, hrun⟩ := Logged.bind_eq_ok.mp h
  obtain ⟨hnodup, hfree⟩ := freeVariables_eq_ok (Logged.lift_eq_ok.mp hvs).1
  have hinv := Logged.foldlM_induction
    (fun done (r : Formula × Nat) _ =>
      0 < r.2 ∧ Rescales f r.1 r.2 fun m => (done.map fun v => f.exactFactor v (m v)).prod)
    (fun {done v _ _ _ _} hmem hdone hstep => by
      obtain ⟨⟨k, e⟩, log₂, hremove, hret⟩ := Logged.bind_eq_ok.mp hstep
      cases hret
      obtain ⟨hpos, hrescales⟩ := hdone
      have hv : v ∈ f.free := hfree ▸ List.mem_toFinset.mpr (hmem.subset (by simp))
      obtain ⟨he, hk⟩ := rescales_removeWeights hrescales.supportInRange (hrescales.free hv) hremove
      simp only [exactFactor_congr hrescales.weight] at hk
      exact ⟨Nat.mul_pos hpos he, hrescales.step hv hk⟩)
    ⟨Nat.one_pos, .refl hr⟩ hrun
  simp only [← hfree, List.prod_toFinset _ hnodup]
  exact hinv

/-- The sum of the weights of the projected models. -/
noncomputable def weightedSum (f : Formula) (cnf : Cnf) : ℚ :=
  ∑ m ∈ cnf.models f.free, ∏ v ∈ f.free, (f.weight ⟨v, m v⟩).rat

private theorem prod_exactFactor (hskip : ∀ v ∈ f.free, ¬ f.IsSkipped v) (m : Valuation) :
    ∏ v ∈ f.free, f.exactFactor v (m v) = ∏ v ∈ f.free, (f.weight ⟨v, m v⟩).rat :=
  Finset.prod_congr rfl fun v hv => if_neg (hskip v hv)

/-- If no variable is left alone, the projected models are counted with their weights. -/
theorem card_models_of_reduce {cnf : Cnf} (hcnf : f.toCnf = .ok cnf) (hr : f.SupportInRange)
    (hskip : ∀ v ∈ f.free, ¬ f.IsSkipped v) (h : f.reduce log = .ok (g, d) log') :
    ∃ cnf', g.toCnf = .ok cnf' ∧ ((cnf'.models g.free).card : ℚ) = d * f.weightedSum cnf := by
  obtain ⟨cnf', hg, hcard⟩ := (rescales_reduce hr h).2.card_models hcnf
  refine ⟨cnf', hg, ?_⟩
  simp only [hcard, weightedSum, prod_exactFactor hskip]

/-- The reduced formula has as many projected models as the contributions of the values of the variables add up
to, times the denominator. If no variable is left alone, this sum is the weighted count. -/
theorem card_models_reduce {cnf : Cnf} (hcnf : f.toCnf = .ok cnf) (hr : f.SupportInRange)
    (h : f.reduce log = .ok (g, d) log') :
    ∃ cnf', g.toCnf = .ok cnf' ∧ 0 < d ∧
      ((cnf'.models g.free).card : ℚ) =
        d * ∑ m ∈ cnf.models f.free, ∏ v ∈ f.free, f.exactFactor v (m v) ∧
      ((∀ v ∈ f.free, ¬ f.IsSkipped v) → f.weightedSum cnf = (cnf'.models g.free).card / d) := by
  obtain ⟨hd, hrescales⟩ := rescales_reduce hr h
  obtain ⟨cnf', hg, hcard⟩ := hrescales.card_models hcnf
  refine ⟨cnf', hg, hd, hcard, fun hskip => ?_⟩
  have hd' : (d : ℚ) ≠ 0 := Nat.cast_ne_zero.mpr hd.ne'
  simp only [hcard, mul_div_cancel_left₀ _ hd', weightedSum, prod_exactFactor hskip]

def thirds : Formula :=
  ((((ofCounts 2 1).addLine (.raw "1 2 0".toList)).addSupport .one).setWeight ⟨.one, true⟩ ⟨1, 3⟩).setWeight
    ⟨.one, false⟩ ⟨4, 6⟩

theorem card_models_reduce_thirds :
    ∃ cnf g log, thirds.toCnf = .ok cnf ∧ thirds.reduce #[] = .ok (g, 3) log ∧
      ∃ cnf', g.toCnf = .ok cnf' ∧ thirds.weightedSum cnf = (cnf'.models g.free).card / 3 := by
  obtain ⟨cnf, hcnf⟩ : ∃ cnf, thirds.toCnf = .ok cnf := ⟨_, rfl⟩
  obtain ⟨g, log, hreduce⟩ : ∃ g log, thirds.reduce #[] = .ok (g, 3) log := ⟨_, _, rfl⟩
  obtain ⟨cnf', hg, -, -, hsum⟩ := card_models_reduce hcnf (by decide) hreduce
  refine ⟨cnf, g, log, hcnf, hreduce, cnf', hg, hsum fun v hv => ?_⟩
  have hmem : v ∈ thirds.support.toList := mem_free.mp hv
  cases List.mem_singleton.mp hmem
  decide +kernel

end Formula
end WeightedCnf

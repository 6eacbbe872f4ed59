import Mathlib.Tactic.FieldSimp
import WeightedCnf.Proofs.Rescaling
import WeightedCnf.Proofs.Weights
import WeightedCnf.Reduction.Dyadic

/-! The dyadic reduction keeps the weighted count in which rounded weights replace the true ones. -/
namespace WeightedCnf
open WeightedCnf.Valuation
open Dimacs.Scanner (IsInline)

def Event.isSkipOf (v : Variable) : Event → Bool
  | invalidWeight u | negativeWeight u .. | improbableWeights u .. | unroundableWeight u _ => u = v
  | _ => false

private theorem isSkipOf_iff {e : Event} {u v : Variable} (h : e.isSkipOf v = true) :
    e.isSkipOf u = true ↔ u = v := by
  cases e <;> simp only [Event.isSkipOf, decide_eq_true_eq, Bool.false_eq_true] at h ⊢ <;>
    exact ⟨fun hu => hu.symm.trans h, fun hu => h.trans hu.symm⟩

namespace Adjustment

/-- What a value of the variable counts after rounding. -/
def factor (a : Adjustment) (b : Bool) : ℚ :=
  if b then a.rounded.rat else 1 - a.rounded.rat

def comment (a : Adjustment) : List Char :=
  "adjust w ".toList ++
    unwords [Text.Decimal.digits a.var.number, a.original.text, "to".toList, a.rounded.text]

private theorem isInline_comment (a : Adjustment) : IsInline a.comment := by
  unfold comment
  simp [Weight.text]

end Adjustment

namespace Formula
variable {f g : Formula} {v : Variable} {d : Nat} {log log' : Log} {positive rounded : Weight}

/-- Both weights are one when they are simplified. -/
def IsUnweighted (f : Formula) (v : Variable) : Prop :=
  (f.weight v.positive).simplify = .ok .one ∧ (f.weight v.negative).simplify = .ok .one

instance (f : Formula) (v : Variable) : Decidable (f.IsUnweighted v) :=
  inferInstanceAs (Decidable ((f.weight v.positive).simplify = .ok .one ∧
    (f.weight v.negative).simplify = .ok .one))

private theorem rescales_addComment (hr : f.SupportInRange) (hv : v ∈ f.free) {text : List Char}
    (htext : IsInline text) : Rescales f (f.addComment text) 1 fun _ => 1 := by
  refine (grows_addComment f text).rescales (q := fun _ => 1) hr ?_ hv (.full []) (.full []) rfl rfl rfl ?_
  · exact fun line hline => List.mem_singleton.mp hline ▸ htext
  · intro b
    cases b <;> norm_num

private theorem rescales_addClause (hr : f.SupportInRange) (hv : v ∈ f.free) {b : Bool}
    (h : f.addClause [⟨v, b⟩] = .ok g) : Rescales f g 1 fun m => if m v = b then 1 else 0 := by
  have hadded : ∀ line ∈ [Line.clause [⟨v, b⟩]], line.IsAdded := fun line hline =>
    List.mem_singleton.mp hline ▸ trivial
  cases b with
  | true =>
    exact (grows_addClause h).rescales (q := fun b => if b = true then 1 else 0) hr hadded hv
      (.full []) (.zero []) rfl rfl rfl (by rintro (_ | _) <;> norm_num)
  | false =>
    exact (grows_addClause h).rescales (q := fun b => if b = false then 1 else 0) hr hadded hv
      (.zero []) (.full []) rfl rfl rfl (by rintro (_ | _) <;> norm_num)

/-- How a rounded weight is removed: to what formula, and by which denominator. -/
inductive Removal (f : Formula) (v : Variable) (w : Weight) : Formula → Nat → Prop
  | half (h : w = .half) : Removal f v w f 2
  | certain {g : Formula} (b : Bool) (h : w.num = if b then w.denom else 0) (hadd : f.addClause [⟨v, b⟩] = .ok g) :
    Removal f v w g 1
  | chains {xs f₁ f₂ f₃ rest} (hhalf : w ≠ .half) (hzero : w.num ≠ 0) (hone : w.num ≠ w.denom)
      (hauxiliaries : f.addAuxiliaries (bitLength (w.denom.toInt.toNat - 1)) = .ok (xs, f₁))
      (hup : f₁.addGuardedChain v.negative (xs.map Variable.positive) w.num.toInt.toNat = .ok f₂)
      (hrest : w.complement = .ok rest)
      (hdown : f₂.addGuardedChain v.positive (xs.map Variable.negative) rest.num.toInt.toNat = .ok f₃) :
    Removal f v w f₃ w.denom.toInt.toNat

theorem removal_of_removeRounded (h : f.removeRounded v positive rounded log = .ok (g, d) log') :
    Removal f v rounded g d ∧
      ∃ events, log'.toList = log.toList ++ events ∧ ∀ e ∈ events, ∀ u, e.isSkipOf u = false := by
  have hnone : ∃ events, log.toList = log.toList ++ events ∧ ∀ e ∈ events, ∀ u, e.isSkipOf u = false :=
    ⟨[], (List.append_nil _).symm, by simp⟩
  unfold removeRounded at h
  split at h
  · rename_i hhalf
    cases h
    exact ⟨.half hhalf, hnone⟩
  rename_i hhalf
  split at h
  · rename_i hzero
    obtain ⟨g', log₁, hadd, hret⟩ := Logged.bind_eq_ok.mp h
    cases hret
    obtain ⟨hclause, rfl⟩ := Logged.lift_eq_ok.mp hadd
    exact ⟨.certain false hzero hclause, hnone⟩
  rename_i hzero
  split at h
  · rename_i hone
    obtain ⟨g', log₁, hadd, hret⟩ := Logged.bind_eq_ok.mp h
    cases hret
    obtain ⟨hclause, rfl⟩ := Logged.lift_eq_ok.mp hadd
    exact ⟨.certain true hone hclause, hnone⟩
  rename_i hone
  obtain ⟨⟨xs, f₁⟩, log₁, haux, h⟩ := Logged.bind_eq_ok.mp h
  obtain ⟨f₂, log₂, hup, h⟩ := Logged.bind_eq_ok.mp h
  obtain ⟨rest, log₃, hrest, h⟩ := Logged.bind_eq_ok.mp h
  obtain ⟨f₃, log₄, hdown, h⟩ := Logged.bind_eq_ok.mp h
  obtain ⟨_, log₅, hreport, hret⟩ := Logged.bind_eq_ok.mp h
  cases hret
  cases hreport
  obtain ⟨hauxiliaries, rfl⟩ := Logged.lift_eq_ok.mp haux
  obtain ⟨htrue, rfl⟩ := Logged.lift_eq_ok.mp hup
  obtain ⟨hcomplement, rfl⟩ := Logged.lift_eq_ok.mp hrest
  obtain ⟨hfalse, rfl⟩ := Logged.lift_eq_ok.mp hdown
  refine ⟨.chains hhalf hzero hone hauxiliaries htrue hcomplement hfalse, [_], Array.toList_push, fun e he u => ?_⟩
  cases List.mem_singleton.mp he
  rfl

/-- Two chains over the same new variables, one for each value of a variable. -/
theorem grows_chains {digits up down : Nat} {xs : List Variable} {f₁ f₂ : Formula}
    (hauxiliaries : f.addAuxiliaries digits = .ok (xs, f₁))
    (hup : f₁.addGuardedChain v.negative (xs.map Variable.positive) up = .ok f₂)
    (hdown : f₂.addGuardedChain v.positive (xs.map Variable.negative) down = .ok g) :
    xs.length = digits ∧ ∃ added ps ns, Grows f g xs added ∧ (∀ line ∈ added, line.IsAdded) ∧
      added.flatMap Line.clauses = guarded v ps ns ∧ Threshold (xs.map Variable.positive) up ps ∧
      Threshold (xs.map Variable.negative) down ns := by
  obtain ⟨hlength, hxs⟩ := grows_addAuxiliaries hauxiliaries
  obtain ⟨ps, hps, hgps⟩ := grows_addGuardedChain hup
  obtain ⟨ns, hns, hgns⟩ := grows_addGuardedChain hdown
  obtain ⟨added, hgrows, hadded, hclauses⟩ := hxs.exists_guarded hgps hgns
  exact ⟨hlength, added, ps, ns, hgrows, hadded, hclauses, Chain.threshold hps, Chain.threshold hns⟩

private theorem Removal.rescales (h : Removal f v rounded g d) (hr : f.SupportInRange) (hv : v ∈ f.free)
    (hd : 0 < rounded.denom.toInt) (h0 : 0 ≤ rounded.num.toInt) (h1 : rounded.num.toInt ≤ rounded.denom.toInt) :
    0 < d ∧ Rescales f g d fun m => if m v then rounded.rat else 1 - rounded.rat := by
  cases h with
  | half h =>
    subst h
    have hnum : Weight.half.num.toInt = 1 := rfl
    have hdenom : Weight.half.denom.toInt = 2 := rfl
    have hrat : Weight.half.rat = 1 / 2 := by norm_num [Weight.rat, hnum, hdenom]
    refine ⟨Nat.two_pos, (Rescales.half hr).congr fun m => ?_⟩
    rw [hrat]
    cases m v <;> norm_num
  | certain b h hadd =>
    have hrat : rounded.rat = if b then 1 else 0 := by
      cases b with
      | true => exact (Weight.rat_eq_one_iff hd).mpr (congrArg Int64.toInt h)
      | false => exact (Weight.rat_eq_zero_iff hd).mpr (congrArg Int64.toInt h)
    refine ⟨Nat.one_pos, (rescales_addClause hr hv hadd).congr fun m => ?_⟩
    rw [hrat]
    cases m v <;> cases b <;> norm_num
  | @chains xs f₁ f₂ f₃ rest hhalf hzero hone hauxiliaries hup hrest hdown =>
    obtain ⟨-, added, ps, ns, hgrows, hadded, hclauses, hps, hns⟩ := grows_chains hauxiliaries hup hdown
    obtain ⟨hrnum, -⟩ := Weight.complement_eq_ok hrest
    have hd' : (rounded.denom.toInt : ℚ) ≠ 0 := Int.cast_ne_zero.mpr hd.ne'
    refine ⟨by omega, hgrows.rescales (q := fun b => if b then rounded.rat else 1 - rounded.rat) hr hadded hv
      hps hns (map_var_mk xs true) (map_var_mk xs false) hclauses fun b => ?_⟩
    have hdcast : ((rounded.denom.toInt.toNat : ℕ) : ℚ) = rounded.denom.toInt := by
      exact_mod_cast Int.toNat_of_nonneg hd.le
    have hpcast : ((rounded.num.toInt.toNat : ℕ) : ℚ) = rounded.num.toInt := by
      exact_mod_cast Int.toNat_of_nonneg h0
    have hncast : ((rest.num.toInt.toNat : ℕ) : ℚ) = rounded.denom.toInt - rounded.num.toInt := by
      rw [hrnum]
      exact_mod_cast Int.toNat_of_nonneg (by omega)
    rw [hdcast, Weight.rat]
    cases b with
    | true =>
      simp only [if_true]
      rw [hpcast]
      field_simp
    | false =>
      simp only [Bool.false_eq_true, if_false]
      rw [hncast]
      field_simp

/-- An adjustment keeps the two weights of a variable that add up to one. The rounded weight is zero or one only
where the true weight is. -/
structure Adjusts (f : Formula) (a : Adjustment) : Prop where
  weighted : ¬ f.IsUnweighted a.var
  original : a.original.toRat? = some (f.weight a.var.positive).rat
  rounded : a.rounded.toRat? = some a.rounded.rat
  complement : (f.weight a.var.negative).rat = 1 - (f.weight a.var.positive).rat
  nonneg : 0 ≤ (f.weight a.var.positive).rat
  le_one : (f.weight a.var.positive).rat ≤ 1
  rounded_nonneg : 0 ≤ a.rounded.rat
  rounded_le_one : a.rounded.rat ≤ 1
  zero : a.rounded.rat = 0 → (f.weight a.var.positive).rat = 0
  one : a.rounded.rat = 1 → (f.weight a.var.positive).rat = 1

/-- What the dyadic reduction does about one variable: to what formula, by which factor, with which adjustments
and events. -/
inductive RoundStep (f : Formula) (v : Variable) : Formula → Nat → List Adjustment → List Event → Prop
  | unweighted (h : f.IsUnweighted v) : RoundStep f v f 2 [] []
  | skipped (e : Event) (h : ¬ f.IsUnweighted v) (hskip : e.isSkipOf v = true) : RoundStep f v f 1 [] [e]
  | adjusted {g d events} (a : Adjustment) (hvar : a.var = v) (h : f.Adjusts a) (hd : 0 < d)
      (hrescales : Rescales f g d fun m => a.factor (m v))
      (hevents : ∀ e ∈ events, ∀ u, e.isSkipOf u = false) : RoundStep f v g d [a] events

theorem rat_negative {p n : Weight} (hd : 0 < p.denom.toInt) (hdenom : p.denom = n.denom)
    (hsum : p.num.toInt + n.num.toInt = p.denom.toInt) : n.rat = 1 - p.rat := by
  have hd' : (p.denom.toInt : ℚ) ≠ 0 := Int.cast_ne_zero.mpr hd.ne'
  have hnum : (n.num.toInt : ℚ) = p.denom.toInt - p.num.toInt := by
    exact_mod_cast (show n.num.toInt = p.denom.toInt - p.num.toInt by omega)
  rw [Weight.rat, Weight.rat, ← hdenom, hnum]
  field_simp

private theorem adjusts_of_round {p n w : Weight} (hweighted : ¬ f.IsUnweighted v)
    (hpos : (f.weight v.positive).simplify = .ok p) (hneg : (f.weight v.negative).simplify = .ok n)
    (hd : 0 < p.denom.toInt) (h0 : 0 ≤ p.num.toInt) (h1 : p.num.toInt ≤ p.denom.toInt) (hdenom : p.denom = n.denom)
    (hsum : p.num.toInt + n.num.toInt = p.denom.toInt) (hwd : 0 < w.denom.toInt) (hw0 : 0 ≤ w.num.toInt)
    (hw1 : w.num.toInt ≤ w.denom.toInt) (hzero : w.num.toInt = 0 → p.num.toInt = 0)
    (hone : w.num.toInt = w.denom.toInt → p.num.toInt = p.denom.toInt) : f.Adjusts ⟨v, p, w⟩ := by
  have hprat : p.rat = (f.weight v.positive).rat := Weight.rat_simplify hpos
  have hnrat : n.rat = (f.weight v.negative).rat := Weight.rat_simplify hneg
  exact
    { weighted := hweighted
      original := by rw [Weight.toRat?_eq (Weight.isValid_of_pos hd), hprat]
      rounded := Weight.toRat?_eq (Weight.isValid_of_pos hwd)
      complement := by rw [← hprat, ← hnrat, rat_negative hd hdenom hsum]
      nonneg := by rwa [← hprat, Weight.rat_nonneg_iff hd]
      le_one := by rwa [← hprat, Weight.rat_le_one_iff hd]
      rounded_nonneg := (Weight.rat_nonneg_iff hwd).mpr hw0
      rounded_le_one := (Weight.rat_le_one_iff hwd).mpr hw1
      zero := fun h => by
        rw [Weight.rat_eq_zero_iff hwd] at h
        rw [← hprat, Weight.rat_eq_zero_iff hd]
        exact hzero h
      one := fun h => by
        rw [Weight.rat_eq_one_iff hwd] at h
        rw [← hprat, Weight.rat_eq_one_iff hd]
        exact hone h }

/-- What happens to the weights of a variable: to what formula, by which factor, with which adjustments and log. They are
rounded and removed if they add up to one and none is negative. -/
inductive Treatment (denom : Int64) (rounding : Rounding) (f : Formula) (v : Variable) (log : Log) :
    Formula → Nat → List Adjustment → Log → Prop
  | unweighted (h : f.IsUnweighted v) : Treatment denom rounding f v log f 2 [] log
  | skipped (e : Event) (h : ¬ f.IsUnweighted v) (hskip : e.isSkipOf v = true) :
    Treatment denom rounding f v log f 1 [] (log.push e)
  | rounded {p n w g d log'} (h : ¬ f.IsUnweighted v) (hpos : (f.weight v.positive).simplify = .ok p)
      (hneg : (f.weight v.negative).simplify = .ok n) (hd : 0 < p.denom.toInt) (hdenom : p.denom = n.denom)
      (hsum : p.num.toInt + n.num.toInt = p.denom.toInt) (hp : 0 ≤ p.num.toInt) (hn : 0 ≤ n.num.toInt)
      (hround : (p.round denom rounding).simplify = .ok w)
      (hremove : (f.addComment (Adjustment.comment ⟨v, p, w⟩)).removeRounded v p w log = .ok (g, d) log') :
    Treatment denom rounding f v log g d [⟨v, p, w⟩] log'

theorem treatment_of_roundWeights {denom : Int64} {rounding : Rounding} {as : List Adjustment}
    (h : f.roundWeights denom rounding v log = .ok (g, d, as) log') :
    Treatment denom rounding f v log g d as log' := by
  unfold roundWeights at h
  obtain ⟨p, log₁, hp, h⟩ := Logged.bind_eq_ok.mp h
  obtain ⟨n, log₂, hn, h⟩ := Logged.bind_eq_ok.mp h
  obtain ⟨hpos, rfl⟩ := Logged.lift_eq_ok.mp hp
  obtain ⟨hneg, rfl⟩ := Logged.lift_eq_ok.mp hn
  split at h
  · rename_i hone
    cases h
    exact .unweighted ⟨hone.1 ▸ hpos, hone.2 ▸ hneg⟩
  rename_i hone
  have hweighted : ¬ f.IsUnweighted v := by
    rintro ⟨h, h'⟩
    rw [hpos] at h
    rw [hneg] at h'
    exact hone ⟨Except.ok.inj h, Except.ok.inj h'⟩
  split at h
  · cases h
    exact .skipped (.invalidWeight v) hweighted (decide_eq_true rfl)
  rename_i hdenom
  split at h
  · cases h
    exact .skipped (.improbableWeights v p n) hweighted (decide_eq_true rfl)
  rename_i hsum
  split at h
  · cases h
    exact .skipped (.negativeWeight v p n) hweighted (decide_eq_true rfl)
  rename_i hsign
  obtain ⟨w, log₃, hw, h⟩ := Logged.bind_eq_ok.mp h
  obtain ⟨hround, rfl⟩ := Logged.lift_eq_ok.mp hw
  split at h
  · cases h
    exact .skipped (.unroundableWeight v p) hweighted (decide_eq_true rfl)
  obtain ⟨⟨k, e⟩, log₄, hremove, hret⟩ := Logged.bind_eq_ok.mp h
  cases hret
  obtain ⟨hdenom', hsum'⟩ : p.denom = n.denom ∧ p.num.toInt + n.num.toInt = p.denom.toInt := by
    simpa using hsum
  exact .rounded hweighted hpos hneg (by omega) hdenom' hsum' (by omega) (by omega) hround hremove

/-- Each variable is dealt with in one of three ways. -/
private theorem roundWeights_step {denom : Int64} (hD : 2 ≤ denom.toInt) {rounding : Rounding} {as : List Adjustment}
    (hr : f.SupportInRange) (hv : v ∈ f.free)
    (h : f.roundWeights denom rounding v log = .ok (g, d, as) log') :
    ∃ events, log'.toList = log.toList ++ events ∧ RoundStep f v g d as events := by
  cases treatment_of_roundWeights h with
  | unweighted hone => exact ⟨[], (List.append_nil _).symm, .unweighted hone⟩
  | skipped e hweighted hskip => exact ⟨[e], Array.toList_push, .skipped e hweighted hskip⟩
  | @rounded p n w _ _ _ hweighted hpos hneg hpd hdenom hsum hp hn hround hremove =>
    obtain ⟨hwd, hw0, hw1, hzero, hone⟩ := Weight.simplify_round_eq_ok hpd hp (by omega) hD hround
    have hadjusts := adjusts_of_round hweighted hpos hneg hpd hp (by omega) hdenom hsum hwd hw0 hw1 hzero hone
    have hcomment := rescales_addComment hr hv (Adjustment.isInline_comment ⟨v, p, w⟩)
    obtain ⟨hremoval, events, hlog, hevents⟩ := removal_of_removeRounded hremove
    obtain ⟨hd, hrescales⟩ := hremoval.rescales hcomment.supportInRange (hcomment.free hv) hwd hw0 hw1
    refine ⟨events, hlog, .adjusted ⟨v, p, w⟩ rfl hadjusts hd ?_ hevents⟩
    have htrans := hcomment.trans hrescales fun m => by rw [restrict_of_mem hv]
    rw [Nat.one_mul] at htrans
    exact htrans.congr fun m => one_mul _

def roundNext (denom : Int64) (rounding : Rounding) :
    Formula × DyadicReduction → Variable → Logged Fault (Formula × DyadicReduction)
  | (f, r), v => do
    let (f, factor, adjustments) ← f.roundWeights denom rounding v
    return (f, { r with
      denominator := r.denominator * factor
      adjustments := r.adjustments ++ adjustments })

theorem roundNext_eq_ok {denom : Int64} {rounding : Rounding} {r : DyadicReduction} {s : Formula × DyadicReduction} :
    roundNext denom rounding (f, r) v log = .ok s log' ↔ ∃ g d as,
      f.roundWeights denom rounding v log = .ok (g, d, as) log' ∧
        s = (g, { denominator := r.denominator * d, adjustments := r.adjustments ++ as }) := by
  constructor
  · intro h
    obtain ⟨⟨g, d, as⟩, log₁, hround, hret⟩ := Logged.bind_eq_ok.mp h
    cases hret
    exact ⟨g, d, as, hround, rfl⟩
  · rintro ⟨g, d, as, hround, rfl⟩
    exact Logged.bind_eq_ok.mpr ⟨_, _, hround, rfl⟩

/-- With a number of bits that is allowed the free variables are dealt with one by one. -/
theorem reduceDyadic_eq_ok {bits : Nat} {rounding : Rounding} {s : Formula × DyadicReduction} :
    f.reduceDyadic bits rounding log = .ok s log' ↔ (1 ≤ bits ∧ bits ≤ DyadicReduction.maxBits) ∧
      ∃ vs, f.freeVariables = .ok vs ∧
        vs.foldlM (roundNext (.ofNat (1 <<< bits)) rounding) (f, ⟨1, []⟩) log = .ok s log' := by
  unfold reduceDyadic
  by_cases hbits : (1 ≤ bits && bits ≤ DyadicReduction.maxBits) = true
  · have hrange : 1 ≤ bits ∧ bits ≤ DyadicReduction.maxBits := by simpa using hbits
    rw [if_pos hbits, Logged.mapError_eq_ok, Logged.bind_eq_ok]
    constructor
    · rintro ⟨vs, log₁, hvs, hrun⟩
      obtain ⟨hfreeVariables, rfl⟩ := Logged.lift_eq_ok.mp hvs
      exact ⟨hrange, vs, hfreeVariables, hrun⟩
    · rintro ⟨-, vs, hvs, hrun⟩
      exact ⟨vs, log, Logged.lift_eq_ok.mpr ⟨hvs, rfl⟩, hrun⟩
  · have hrange : ¬ (1 ≤ bits ∧ bits ≤ DyadicReduction.maxBits) := by simpa using hbits
    rw [if_neg hbits]
    constructor
    · intro h
      obtain ⟨_, log₁, hthrow, -⟩ := Logged.bind_eq_ok.mp h
      cases hthrow
    · exact fun h => absurd h.1 hrange

/-- Weights are rounded to multiples of one half or less. -/
theorem two_le_denominator {bits : Nat} (hbits : 1 ≤ bits ∧ bits ≤ DyadicReduction.maxBits) :
    2 ≤ (Int64.ofNat (1 <<< bits)).toInt := by
  have hlow : 2 ^ 1 ≤ 2 ^ bits := Nat.pow_le_pow_right Nat.two_pos hbits.1
  have hhigh : 2 ^ bits ≤ 2 ^ 62 := Nat.pow_le_pow_right Nat.two_pos hbits.2
  rw [Nat.one_shiftLeft, Int64.toInt_ofNat_of_lt (lt_of_le_of_lt hhigh (by norm_num))]
  exact_mod_cast hlow

/-- What a value of a variable counts: as the adjustment of the variable says, if there is one, one half when both
weights are one, and nothing when the variable is left alone. -/
def dyadicFactor (f : Formula) (as : List Adjustment) (weigh : Adjustment → Bool → ℚ) (v : Variable)
    (b : Bool) : ℚ :=
  match as.find? (·.var = v) with
  | some a => weigh a b
  | none => if f.IsUnweighted v then 1 / 2 else 1

variable {as bs : List Adjustment} {weigh : Adjustment → Bool → ℚ} {b : Bool}

theorem find?_eq_none (h : v ∉ as.map Adjustment.var) : as.find? (·.var = v) = none := by
  rw [List.find?_eq_none]
  intro a ha hvar
  exact h (of_decide_eq_true hvar ▸ List.mem_map_of_mem ha)

private theorem dyadicFactor_of_notMem (h : v ∉ as.map Adjustment.var) :
    f.dyadicFactor as weigh v b = if f.IsUnweighted v then 1 / 2 else 1 := by
  rw [dyadicFactor, find?_eq_none h]

private theorem dyadicFactor_append_left (h : v ∉ bs.map Adjustment.var) :
    f.dyadicFactor (as ++ bs) weigh v b = f.dyadicFactor as weigh v b := by
  rw [dyadicFactor, dyadicFactor, List.find?_append, find?_eq_none h, Option.or_none]

private theorem dyadicFactor_concat {a : Adjustment} (h : a.var ∉ as.map Adjustment.var) :
    f.dyadicFactor (as ++ [a]) weigh a.var b = weigh a b := by
  have hself : [a].find? (·.var = a.var) = some a := List.find?_cons_of_pos (decide_eq_true rfl)
  rw [dyadicFactor, List.find?_append, find?_eq_none h, Option.none_or, hself]

/-- What holds during a dyadic reduction, when `done` are the variables that were dealt with. -/
structure DyadicRun (f : Formula) (start : Log) (done : List Variable) (s : Formula × DyadicReduction)
    (log : Log) : Prop where
  pos : 0 < s.2.denominator
  rescales : Rescales f s.1 s.2.denominator fun m =>
    (done.map fun v => f.dyadicFactor s.2.adjustments Adjustment.factor v (m v)).prod
  vars : (s.2.adjustments.map Adjustment.var).Sublist done
  adjusts : ∀ a ∈ s.2.adjustments, f.Adjusts a
  events : ∃ events, log.toList = start.toList ++ events ∧ ∀ v, (∃ e ∈ events, e.isSkipOf v = true) ↔
    v ∈ done ∧ ¬ f.IsUnweighted v ∧ v ∉ s.2.adjustments.map Adjustment.var

theorem isUnweighted_congr (h : ∀ l, g.weight l = f.weight l) : g.IsUnweighted v ↔ f.IsUnweighted v := by
  rw [IsUnweighted, IsUnweighted, h, h]

private theorem adjusts_congr (h : ∀ l, g.weight l = f.weight l) {a : Adjustment} (ha : g.Adjusts a) :
    f.Adjusts a where
  weighted := (isUnweighted_congr h).not.mp ha.weighted
  original := h _ ▸ ha.original
  rounded := ha.rounded
  complement := h a.var.positive ▸ h a.var.negative ▸ ha.complement
  nonneg := h _ ▸ ha.nonneg
  le_one := h _ ▸ ha.le_one
  rounded_nonneg := ha.rounded_nonneg
  rounded_le_one := ha.rounded_le_one
  zero := h _ ▸ ha.zero
  one := h _ ▸ ha.one

private theorem RoundStep.effect {k : Formula} {e : Nat} {events : List Event}
    (h : RoundStep g v k e bs events) (hr : g.SupportInRange) (hw : ∀ l, g.weight l = f.weight l)
    (hnew : v ∉ as.map Adjustment.var) :
    0 < e ∧ (Rescales g k e fun m => f.dyadicFactor (as ++ bs) Adjustment.factor v (m v)) ∧
      (bs.map Adjustment.var).Sublist [v] ∧ (∀ a ∈ bs, f.Adjusts a) ∧
      ∀ u, (∃ e ∈ events, e.isSkipOf u = true) ↔
        u = v ∧ ¬ f.IsUnweighted v ∧ v ∉ bs.map Adjustment.var := by
  cases h with
  | unweighted h =>
    rw [isUnweighted_congr hw] at h
    refine ⟨Nat.two_pos, (Rescales.half hr).congr fun m => ?_, List.nil_sublist _, nofun, fun u => ?_⟩
    · rw [List.append_nil, dyadicFactor_of_notMem hnew, if_pos h]
    · exact ⟨nofun, fun hu => absurd h hu.2.1⟩
  | skipped event h hskip =>
    rw [isUnweighted_congr hw] at h
    refine ⟨Nat.one_pos, (Rescales.refl hr).congr fun m => ?_, List.nil_sublist _, nofun, fun u => ?_⟩
    · rw [List.append_nil, dyadicFactor_of_notMem hnew, if_neg h]
    · simp [isSkipOf_iff hskip, h]
  | adjusted a hvar h hd hrescales hevents =>
    subst hvar
    refine ⟨hd, hrescales.congr fun m => (dyadicFactor_concat hnew).symm, List.Sublist.refl _, ?_, fun u => ?_⟩
    · exact fun a' ha' => List.mem_singleton.mp ha' ▸ adjusts_congr hw h
    · constructor
      · rintro ⟨event, hmem, hskip⟩
        exact absurd hskip (by rw [hevents event hmem u]; exact Bool.false_ne_true)
      · exact fun hu => absurd List.mem_cons_self hu.2.2

private theorem DyadicRun.step {start : Log} {done : List Variable} {r : DyadicReduction} {k : Formula} {e : Nat}
    {events : List Event} (h : DyadicRun f start done (g, r) log) (hv : v ∈ f.free) (hdone : v ∉ done)
    (hstep : RoundStep g v k e bs events) (hlog : log'.toList = log.toList ++ events) :
    DyadicRun f start (done ++ [v])
      (k, { denominator := r.denominator * e, adjustments := r.adjustments ++ bs }) log' := by
  have hnew : v ∉ r.adjustments.map Adjustment.var := fun hmem => hdone (h.vars.subset hmem)
  obtain ⟨he, hrescales, hvars, hadjusts, hevents⟩ :=
    hstep.effect h.rescales.supportInRange h.rescales.weight hnew
  have hother : ∀ u ∈ done, u ∉ bs.map Adjustment.var := fun u hu hmem =>
    hdone (List.mem_singleton.mp (hvars.subset hmem) ▸ hu)
  refine ⟨Nat.mul_pos h.pos he, (h.rescales.congr fun m => ?_).step hv hrescales, ?_, ?_, ?_⟩
  · refine congrArg List.prod (List.map_congr_left fun u hu => ?_)
    exact (dyadicFactor_append_left (hother u hu)).symm
  · rw [List.map_append]
    exact h.vars.append hvars
  · exact List.forall_mem_append.mpr ⟨h.adjusts, hadjusts⟩
  · obtain ⟨old, hold, hiff⟩ := h.events
    refine ⟨old ++ events, by rw [hlog, hold, List.append_assoc], fun u => ?_⟩
    simp only [List.mem_append, or_and_right, exists_or, List.map_append, not_or]
    rw [hiff, hevents, List.mem_singleton]
    constructor
    · rintro (⟨hu, hweighted, hu'⟩ | ⟨rfl, hweighted, hu⟩)
      · exact .inl ⟨hu, hweighted, hu', hother u hu⟩
      · exact .inr ⟨rfl, hweighted, hnew, hu⟩
    · rintro (⟨hu, hweighted, hu', -⟩ | ⟨rfl, hweighted, -, hu⟩)
      · exact .inl ⟨hu, hweighted, hu'⟩
      · exact .inr ⟨rfl, hweighted, hu⟩

/-- A whole run of the reduction. -/
theorem dyadicRun {bits : Nat} {rounding : Rounding} {r : DyadicReduction} (hr : f.SupportInRange)
    (h : f.reduceDyadic bits rounding log = .ok (g, r) log') :
    ∃ vs, vs.Nodup ∧ vs.toFinset = f.free ∧ DyadicRun f log vs (g, r) log' := by
  obtain ⟨hbits, vs, hvs, hrun⟩ := reduceDyadic_eq_ok.mp h
  obtain ⟨hnodup, hfree⟩ := freeVariables_eq_ok hvs
  refine ⟨vs, hnodup, hfree, Logged.foldlM_induction (DyadicRun f log) ?_ ?_ hrun⟩
  · rintro done v ⟨g', r'⟩ s' log₃ log₄ hmem hdone hnext
    obtain ⟨k, e, bs, hround, rfl⟩ := roundNext_eq_ok.mp hnext
    have hv : v ∈ f.free := hfree ▸ List.mem_toFinset.mpr (hmem.subset (by simp))
    have hnew : v ∉ done := fun hmem' =>
      (List.nodup_append.mp (hmem.sublist.nodup hnodup)).2.2 v hmem' v (List.mem_singleton_self v) rfl
    obtain ⟨events, hlog, hstep⟩ := roundWeights_step (two_le_denominator hbits) hdone.rescales.supportInRange
      (hdone.rescales.free hv) hround
    exact hdone.step hv hnew hstep hlog
  · exact ⟨Nat.one_pos, .refl hr, List.Sublist.refl _, nofun, [], (List.append_nil _).symm, by simp⟩

/-- The weighted count of a formula when adjusted variables have the weights that `weigh` says. -/
noncomputable def dyadicSum (f : Formula) (cnf : Cnf) (as : List Adjustment)
    (weigh : Adjustment → Bool → ℚ) : ℚ :=
  ∑ m ∈ cnf.models f.free, ∏ v ∈ f.free, f.dyadicFactor as weigh v (m v)

theorem DyadicRun.card_models {vs : List Variable} {r : DyadicReduction} {cnf : Cnf} (hnodup : vs.Nodup)
    (hfree : vs.toFinset = f.free) (h : DyadicRun f log vs (g, r) log') (hcnf : f.toCnf = .ok cnf) :
    ∃ cnf', g.toCnf = .ok cnf' ∧
      ((cnf'.models g.free).card : ℚ) / r.denominator = f.dyadicSum cnf r.adjustments Adjustment.factor := by
  obtain ⟨cnf', hg, hcard⟩ := h.rescales.card_models hcnf
  have hd : (r.denominator : ℚ) ≠ 0 := Nat.cast_ne_zero.mpr h.pos.ne'
  refine ⟨cnf', hg, ?_⟩
  rw [hcard, mul_div_cancel_left₀ _ hd, dyadicSum]
  simp only [← hfree, List.prod_toFinset _ hnodup]

theorem DyadicRun.mem_free {vs : List Variable} {r : DyadicReduction} {a : Adjustment}
    (hfree : vs.toFinset = f.free) (h : DyadicRun f log vs (g, r) log') (ha : a ∈ r.adjustments) :
    a.var ∈ f.free := by
  rw [← hfree, List.mem_toFinset]
  exact h.vars.subset (List.mem_map_of_mem ha)

/-- The count of the reduced formula divided by the denominator is the weighted count in which a variable with an
adjustment has its rounded weight, a variable without weights counts one half, and a variable that is left alone
with a warning does not count. -/
theorem card_models_reduceDyadic {cnf : Cnf} {bits : Nat} {rounding : Rounding} {r : DyadicReduction}
    (hcnf : f.toCnf = .ok cnf) (hr : f.SupportInRange)
    (h : f.reduceDyadic bits rounding log = .ok (g, r) log') :
    ∃ cnf', g.toCnf = .ok cnf' ∧ 0 < r.denominator ∧
      ((cnf'.models g.free).card : ℚ) / r.denominator = f.dyadicSum cnf r.adjustments Adjustment.factor ∧
      (r.adjustments.map Adjustment.var).Nodup ∧ (∀ a ∈ r.adjustments, a.var ∈ f.free ∧ f.Adjusts a) ∧
      ∃ events, log'.toList = log.toList ++ events ∧ ∀ v, (∃ e ∈ events, e.isSkipOf v = true) ↔
        v ∈ f.free ∧ ¬ f.IsUnweighted v ∧ v ∉ r.adjustments.map Adjustment.var := by
  obtain ⟨vs, hnodup, hfree, hrun⟩ := dyadicRun hr h
  obtain ⟨cnf', hg, hcard⟩ := hrun.card_models hnodup hfree hcnf
  obtain ⟨events, hlog, hevents⟩ := hrun.events
  refine ⟨cnf', hg, hrun.pos, hcard, hrun.vars.nodup hnodup,
    fun a ha => ⟨hrun.mem_free hfree ha, hrun.adjusts a ha⟩, events, hlog, fun v => ?_⟩
  rw [hevents, ← hfree, List.mem_toFinset]

def biased : Formula :=
  (((ofCounts 2 1).addLine (.raw "1 2 0".toList)).setWeight ⟨.one, true⟩ ⟨1, 3⟩).setWeight
    ⟨.one, false⟩ ⟨2, 3⟩

theorem card_models_reduceDyadic_biased :
    ∃ cnf g log, biased.toCnf = .ok cnf ∧
      biased.reduceDyadic 2 .down #[] = .ok (g, ⟨8, [⟨⟨0, by decide⟩, ⟨1, 3⟩, ⟨1, 4⟩⟩]⟩) log ∧
      ∃ cnf', g.toCnf = .ok cnf' ∧ ((cnf'.models g.free).card : ℚ) / (8 : ℕ) =
        biased.dyadicSum cnf [⟨⟨0, by decide⟩, ⟨1, 3⟩, ⟨1, 4⟩⟩] Adjustment.factor := by
  obtain ⟨cnf, hcnf⟩ : ∃ cnf, biased.toCnf = .ok cnf := ⟨_, rfl⟩
  obtain ⟨g, log, hreduce⟩ : ∃ g log, biased.reduceDyadic 2 .down #[] =
      .ok (g, ⟨8, [⟨⟨0, by decide⟩, ⟨1, 3⟩, ⟨1, 4⟩⟩]⟩) log := ⟨_, _, rfl⟩
  obtain ⟨cnf', hg, -, hcard, -⟩ := card_models_reduceDyadic hcnf (by decide) hreduce
  exact ⟨cnf, g, log, hcnf, hreduce, cnf', hg, hcard⟩

end Formula
end WeightedCnf

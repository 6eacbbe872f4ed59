import WeightedCnf.Proofs.ExactRounding
import WeightedCnf.Proofs.ReductionLines

/-! Both reductions depend on the values of the weights, not on the fractions that these are written as: two runs
on weights of the same values add the same to a formula. -/
namespace WeightedCnf

/-- Both computations fail in the same way or give related results, whatever they report. -/
inductive Corresponds {ε α β : Type} (R : α → β → Prop) : EStateM.Result ε Log α → EStateM.Result ε Log β → Prop
  | ok {a b log log'} (h : R a b) : Corresponds R (.ok a log) (.ok b log')
  | error (e) {log log'} : Corresponds R (.error e log) (.error e log')

namespace Corresponds
variable {ε δ α β σ τ : Type} {R : α → β → Prop} {S : σ → τ → Prop} {x x' : Logged ε α} {y y' : Logged ε β}
  {log log' : Log}

private theorem imp {R' : α → β → Prop} (h : Corresponds R (x log) (y log'))
    (hR : ∀ a b log₁, x log = .ok a log₁ → R a b → R' a b) : Corresponds R' (x log) (y log') := by
  generalize hx : x log = r, y log' = r' at h
  cases h with
  | ok h => exact .ok (hR _ _ _ hx h)
  | error e => exact .error e

private theorem bind {f : α → Logged ε σ} {g : β → Logged ε τ} (h : Corresponds R (x log) (y log'))
    (hf : ∀ a b log₁ log₁', R a b → Corresponds S (f a log₁) (g b log₁')) :
    Corresponds S ((x >>= f) log) ((y >>= g) log') := by
  change Corresponds S (EStateM.bind x f log) (EStateM.bind y g log')
  unfold EStateM.bind
  generalize x log = r, y log' = r' at h
  cases h with
  | ok h => exact hf _ _ _ _ h
  | error e => exact .error e

private theorem ite {c : Prop} [Decidable c] (h : Corresponds R (x log) (y log'))
    (h' : Corresponds R (x' log) (y' log')) :
    Corresponds R ((if c then x else x') log) ((if c then y else y') log') := by
  by_cases hc : c
  · rwa [if_pos hc, if_pos hc]
  · rwa [if_neg hc, if_neg hc]

private theorem lift (x : Except ε α) (log log' : Log) : Corresponds Eq (Logged.lift x log) (Logged.lift x log') := by
  cases x with
  | ok a => exact .ok rfl
  | error e => exact .error e

private theorem lift_map {x : Except ε α} {y : Except ε β} {q : α → β} (h : y = q <$> x) (log log' : Log) :
    Corresponds (fun a b => b = q a) (Logged.lift x log) (Logged.lift y log') := by
  subst h
  cases x with
  | ok a => exact .ok rfl
  | error e => exact .error e

private theorem mapError {q : ε → δ} (h : Corresponds R (x log) (y log')) :
    Corresponds R (Logged.mapError q x log) (Logged.mapError q y log') := by
  change Corresponds R (EStateM.adaptExcept q x log) (EStateM.adaptExcept q y log')
  unfold EStateM.adaptExcept
  generalize x log = r, y log' = r' at h
  cases h with
  | ok h => exact .ok h
  | error e => exact .error (q e)

private theorem foldlM {step : σ → α → Logged ε σ} {step' : τ → α → Logged ε τ} {xs : List α}
    (hstep : ∀ a s t log log', S s t → Corresponds S (step s a log) (step' t a log')) {s : σ} {t : τ} (hst : S s t)
    (log log' : Log) : Corresponds S (xs.foldlM step s log) (xs.foldlM step' t log') := by
  induction xs generalizing s t log log' with
  | nil => exact .ok hst
  | cons a xs ih =>
    rw [List.foldlM_cons, List.foldlM_cons]
    exact (hstep a s t log log' hst).bind fun s' t' log₁ log₁' hst' => ih hst' log₁ log₁'

end Corresponds

namespace Formula
variable {f g k : Formula} {v : Variable} {w : Weights} {log log' : Log}

def withWeights (f : Formula) (w : Weights) : Formula :=
  { f with weights := w }

/-- Weights that can be read, and that are of the same values as those of the formula. -/
def SameValues (f : Formula) (w : Weights) : Prop :=
  ∀ l, ∃ q, (f.weight l).toRat? = some q ∧ ((f.withWeights w).weight l).toRat? = some q

section Operations

private theorem addClause_withWeights (f : Formula) (clause : Clause) :
    (f.withWeights w).addClause clause = (withWeights · w) <$> f.addClause clause := by
  by_cases h : f.clauseCount + 1 < UInt64.size
  · rw [addClause_eq_ok clause h]
    exact if_pos h
  · have herror : f.addClause clause = .error .overflow := if_neg h
    rw [herror]
    exact if_neg h

private theorem addClauses_withWeights (f : Formula) (clauses : List Clause) :
    (f.withWeights w).addClauses clauses = (withWeights · w) <$> f.addClauses clauses := by
  induction clauses generalizing f with
  | nil => rfl
  | cons c cs ih =>
    unfold addClauses at ih ⊢
    rw [List.foldlM_cons, List.foldlM_cons, addClause_withWeights]
    cases f.addClause c with
    | ok k => exact ih k
    | error e => rfl

private theorem addAuxiliaries_withWeights (f : Formula) (count : Nat) :
    (f.withWeights w).addAuxiliaries count = (fun r => (r.1, r.2.withWeights w)) <$> f.addAuxiliaries count := by
  induction count generalizing f with
  | zero => rfl
  | succ count ih =>
    have hadd : (f.withWeights w).addVariable = (fun r => (r.1, r.2.withWeights w)) <$> f.addVariable := by
      unfold addVariable
      change (Variable.ofNumber (f.variableCount + 1) >>= _) = _
      cases Variable.ofNumber (f.variableCount + 1) <;> rfl
    rw [addAuxiliaries, addAuxiliaries, hadd]
    cases f.addVariable with
    | error e => rfl
    | ok r =>
      have hsupport : (if (f.withWeights w).support.isEmpty then r.2.withWeights w
          else (r.2.withWeights w).addSupport r.1) =
            (if f.support.isEmpty then r.2 else r.2.addSupport r.1).withWeights w := by
        change (if f.support.isEmpty then _ else _) = _
        split <;> rfl
      dsimp only [Functor.map, Except.map, bind, Except.bind]
      rw [hsupport, ih]
      cases (if f.support.isEmpty then r.2 else r.2.addSupport r.1).addAuxiliaries count <;> rfl

private theorem addGuardedChain_withWeights (f : Formula) (guard : Literal) (ls : List Literal) (count : Nat) :
    (f.withWeights w).addGuardedChain guard ls count = (withWeights · w) <$> f.addGuardedChain guard ls count := by
  unfold addGuardedChain
  cases Chain.clauses ls count with
  | ok cs => exact addClauses_withWeights f _
  | error e => rfl

private theorem addShare_withWeights (f : Formula) (guard : Literal) (ls : List Literal) (count : Nat) :
    (f.withWeights w).addShare guard ls count = (withWeights · w) <$> f.addShare guard ls count := by
  unfold addShare
  split
  · exact addClause_withWeights f _
  · exact addGuardedChain_withWeights f guard ls count

end Operations

namespace SameValues
variable (h : f.SameValues w)
include h

private theorem isValid (l : Literal) : (f.weight l).isValid = true ∧ ((f.withWeights w).weight l).isValid = true := by
  obtain ⟨q, hf, hw⟩ := h l
  exact ⟨(Weight.toRat?_eq_some.mp hf).1, (Weight.toRat?_eq_some.mp hw).1⟩

private theorem rat (l : Literal) : ((f.withWeights w).weight l).rat = (f.weight l).rat := by
  obtain ⟨q, hf, hw⟩ := h l
  rw [(Weight.toRat?_eq_some.mp hf).2, (Weight.toRat?_eq_some.mp hw).2]

private theorem shares (v : Variable) : (f.withWeights w).shares v = f.shares v :=
  Shares.normalize_congr (h.isValid _).1 (h.isValid _).1 (h.isValid _).2 (h.isValid _).2 (h.rat _) (h.rat _)

private theorem staysAsIs (v : Variable) : (f.withWeights w).StaysAsIs v ↔ f.StaysAsIs v := by
  have hdenom : ∀ l, (f.weight l).denom ≠ 0 ∧ ((f.withWeights w).weight l).denom ≠ 0 := fun l =>
    ⟨bne_iff_ne.mp (h.isValid l).1, bne_iff_ne.mp (h.isValid l).2⟩
  simp only [StaysAsIs, IsSkipped, h.shares, h.rat, hdenom]

private theorem auxiliaryCount (v : Variable) : (f.withWeights w).auxiliaryCount v = f.auxiliaryCount v := by
  unfold Formula.auxiliaryCount
  rw [h.shares]
  exact if_congr (h.staysAsIs v) rfl rfl

end SameValues

/-- Both formulas gained the same variables, support and lines, and the other values of both results are the same. -/
def AddsAlike {α : Type} (f g : Formula) (r r' : Formula × α) : Prop :=
  r.2 = r'.2 ∧ ∃ xs added, Grows f r.1 xs added ∧ Grows g r'.1 xs added

private theorem Grows.withWeights {xs : List Variable} {added : List Line} (h : Grows f g xs added) :
    Grows (f.withWeights w) (g.withWeights w) xs added :=
  ⟨h.variableCount, h.numbers, h.clauseCount, h.body, h.support, rfl, h.format⟩

/-- What a run on the same formula with other weights has to give. -/
private abbrev Follows {α : Type} (w : Weights) (r r' : Formula × α) : Prop :=
  r' = (r.1.withWeights w, r.2)

private theorem Follows.addsAlike {α : Type} {r r' : Formula × α} (h : Follows w r r') (hr : f.Accrues r.1) :
    AddsAlike f (f.withWeights w) r r' := by
  obtain ⟨xs, added, hgrows, -⟩ := hr
  cases h
  exact ⟨rfl, xs, added, hgrows, hgrows.withWeights⟩

section Steps
variable (f) (v) (log log')

private theorem follows_removeWeights (h : f.SameValues w) :
    Corresponds (Follows w) (f.removeWeights v log) ((f.withWeights w).removeWeights v log') := by
  by_cases hstays : f.StaysAsIs v
  · obtain ⟨_, hkeep⟩ := removeWeights_of_stays hstays log
    obtain ⟨_, hkeep'⟩ := removeWeights_of_stays ((h.staysAsIs v).mpr hstays) log'
    rw [hkeep, hkeep']
    exact .ok rfl
  rw [removeWeights_of_not_stays hstays, removeWeights_of_not_stays ((h.staysAsIs v).not.mpr hstays),
    h.shares, h.auxiliaryCount]
  refine (Corresponds.lift_map (addAuxiliaries_withWeights f _) log log').bind ?_
  rintro ⟨xs, f₁⟩ _ log₁ log₁' rfl
  refine (Corresponds.lift_map (addShare_withWeights f₁ _ _ _) log₁ log₁').bind ?_
  rintro f₂ _ log₂ log₂' rfl
  refine (Corresponds.lift_map (addShare_withWeights f₂ _ _ _) log₂ log₂').bind ?_
  rintro f₃ _ log₃ log₃' rfl
  exact .ok rfl

private theorem follows_removeRounded (positive rounded : Weight) :
    Corresponds (Follows w) (f.removeRounded v positive rounded log)
      ((f.withWeights w).removeRounded v positive rounded log') := by
  unfold removeRounded
  refine .ite (.ok rfl) (.ite ?_ (.ite ?_ ?_))
  · refine (Corresponds.lift_map (addClause_withWeights f _) log log').bind ?_
    rintro g _ log₁ log₁' rfl
    exact .ok rfl
  · refine (Corresponds.lift_map (addClause_withWeights f _) log log').bind ?_
    rintro g _ log₁ log₁' rfl
    exact .ok rfl
  · refine (Corresponds.lift_map (addAuxiliaries_withWeights f _) log log').bind ?_
    rintro ⟨xs, f₁⟩ _ log₁ log₁' rfl
    refine (Corresponds.lift_map (addGuardedChain_withWeights f₁ _ _ _) log₁ log₁').bind ?_
    rintro f₂ _ log₂ log₂' rfl
    refine (Corresponds.lift _ log₂ log₂').bind ?_
    rintro rest _ log₃ log₃' rfl
    refine (Corresponds.lift_map (addGuardedChain_withWeights f₂ _ _ _) log₃ log₃').bind ?_
    rintro f₃ _ log₄ log₄' rfl
    exact .ok rfl

private theorem follows_roundWeights (h : ∀ l, ((f.withWeights w).weight l).simplify = (f.weight l).simplify)
    (denom : Int64) (rounding : Rounding) :
    Corresponds (Follows w) (f.roundWeights denom rounding v log)
      ((f.withWeights w).roundWeights denom rounding v log') := by
  unfold roundWeights
  rw [h, h]
  refine (Corresponds.lift _ log log').bind ?_
  rintro positive _ log₁ log₁' rfl
  refine (Corresponds.lift _ log₁ log₁').bind ?_
  rintro negative _ log₂ log₂' rfl
  refine .ite (.ok rfl) (.ite (.ok rfl) (.ite (.ok rfl) (.ite (.ok rfl) ?_)))
  refine (Corresponds.lift _ log₂ log₂').bind ?_
  rintro rounded _ log₃ log₃' rfl
  refine .ite (.ok rfl) ?_
  refine (follows_removeRounded _ v log₃ log₃' positive rounded).bind ?_
  rintro ⟨g, factor⟩ _ log₄ log₄' rfl
  exact .ok rfl

end Steps

section Runs

private theorem weight_congr (hk : k.weights = f.weights) (l : Literal) : k.weight l = f.weight l := by
  rw [weight, weight, hk]

private theorem follows_reduce (h : f.SameValues w) (log log' : Log) :
    Corresponds (Follows w) (f.reduce log) ((f.withWeights w).reduce log') := by
  refine (Corresponds.lift f.freeVariables log log').bind ?_
  rintro vs _ log₁ log₁' rfl
  refine (Corresponds.foldlM (S := fun s t => Follows w s t ∧ s.1.weights = f.weights) ?_ ⟨rfl, rfl⟩ log₁ log₁').imp
    fun _ _ _ _ hst => hst.1
  rintro v ⟨k, d⟩ _ log₂ log₂' ⟨rfl, hk⟩
  have hvalues : k.SameValues w := fun l => weight_congr hk l ▸ h l
  refine ((follows_removeWeights k v log₂ log₂' hvalues).imp fun r r' log₃ hrun hr => ?_).bind
    (R := fun r r' => Follows w r r' ∧ r.1.weights = f.weights) ?_
  · obtain ⟨xs, added, hgrows, -⟩ := accrues_removeWeights hrun
    exact ⟨hr, hgrows.weights.trans hk⟩
  · rintro ⟨g, e⟩ _ log₃ log₃' ⟨rfl, hg⟩
    exact .ok ⟨rfl, hg⟩

private theorem follows_reduceDyadic (h : ∀ l, ((f.withWeights w).weight l).simplify = (f.weight l).simplify)
    (bits : Nat) (rounding : Rounding) (log log' : Log) :
    Corresponds (Follows w) (f.reduceDyadic bits rounding log) ((f.withWeights w).reduceDyadic bits rounding log') := by
  unfold reduceDyadic
  refine .ite (Corresponds.mapError ?_) (.error _)
  refine (Corresponds.lift f.freeVariables log log').bind ?_
  rintro vs _ log₁ log₁' rfl
  refine (Corresponds.foldlM (S := fun s t => Follows w s t ∧ s.1.weights = f.weights) ?_ ⟨rfl, rfl⟩ log₁ log₁').imp
    fun _ _ _ _ hst => hst.1
  rintro v ⟨k, r⟩ _ log₂ log₂' ⟨rfl, hk⟩
  have hsimplify : ∀ l, ((k.withWeights w).weight l).simplify = (k.weight l).simplify := fun l =>
    weight_congr hk l ▸ h l
  refine ((follows_roundWeights k v log₂ log₂' hsimplify _ rounding).imp fun s s' log₃ hrun hs => ?_).bind
    (R := fun s s' => Follows w s s' ∧ s.1.weights = f.weights) ?_
  · obtain ⟨xs, added, hgrows, -⟩ := accrues_roundWeights hrun
    exact ⟨hs, hgrows.weights.trans hk⟩
  · rintro ⟨g, factor, adjustments⟩ _ log₃ log₃' ⟨rfl, hg⟩
    exact .ok ⟨rfl, hg⟩

end Runs

/-- On weights of the same values the exact reduction fails in the same way, or adds the same and has the same
denominator. If the denominators are positive and no numerator is the least one, then so does the dyadic reduction,
with the same adjustments. -/
theorem reductions_correspond (h : f.SameValues w) (log log' : Log) :
    Corresponds (AddsAlike f (f.withWeights w)) (f.reduce log) ((f.withWeights w).reduce log') ∧
    ((∀ l, (f.weight l).IsSimplifiable ∧ ((f.withWeights w).weight l).IsSimplifiable) → ∀ bits rounding,
      Corresponds (AddsAlike f (f.withWeights w)) (f.reduceDyadic bits rounding log)
        ((f.withWeights w).reduceDyadic bits rounding log')) := by
  refine ⟨(follows_reduce h log log').imp fun r r' log₁ hrun hr => hr.addsAlike (accrues_reduce hrun), ?_⟩
  intro hsimplifiable bits rounding
  have hsimplify : ∀ l, ((f.withWeights w).weight l).simplify = (f.weight l).simplify := by
    intro l
    obtain ⟨hf, hw⟩ := hsimplifiable l
    exact Weight.simplify_congr hw hf (h.rat l)
  exact (follows_reduceDyadic hsimplify bits rounding log log').imp fun r r' log₁ hrun hr =>
    hr.addsAlike (accrues_reduceDyadic hrun)

def otherThirds : Weights :=
  ((∅ : Weights).insertIfNew ⟨.one, true⟩ ⟨2, 6⟩).insertIfNew ⟨.one, false⟩ ⟨2, 3⟩

private theorem weight_thirds (l : Literal) :
    (thirds.weight l, (thirds.withWeights otherThirds).weight l) ∈
      [(⟨1, 3⟩, ⟨2, 6⟩), (⟨4, 6⟩, ⟨2, 3⟩), (Weight.one, Weight.one)] := by
  by_cases hpositive : l = ⟨.one, true⟩
  · subst hpositive
    decide +kernel
  by_cases hnegative : l = ⟨.one, false⟩
  · subst hnegative
    decide +kernel
  have hp : ¬ (⟨.one, true⟩ : Literal) = l := fun he => hpositive he.symm
  have hn : ¬ (⟨.one, false⟩ : Literal) = l := fun he => hnegative he.symm
  have hf : thirds.weights[l]? = none := by
    simp [thirds, setWeight, addSupport, addLine, ofCounts, hp, hn]
  have hw : otherThirds[l]? = none := by
    simp [otherThirds, hp, hn]
  rw [weight, weight, withWeights, hf, hw]
  decide +kernel

theorem reductions_correspond_thirds : ∃ g g' d log log', thirds.reduce #[] = .ok (g, d) log ∧
    (thirds.withWeights otherThirds).reduce #[] = .ok (g', d) log' ∧
    ∃ k k' r log₁ log₁', thirds.reduceDyadic 2 .near #[] = .ok (k, r) log₁ ∧
      (thirds.withWeights otherThirds).reduceDyadic 2 .near #[] = .ok (k', r) log₁' ∧
      ∃ xs added, Grows thirds k xs added ∧ Grows (thirds.withWeights otherThirds) k' xs added := by
  have hvalues : thirds.SameValues otherThirds := by
    have hall : ∀ r ∈ [((⟨1, 3⟩, ⟨2, 6⟩) : Weight × Weight), (⟨4, 6⟩, ⟨2, 3⟩), (Weight.one, Weight.one)],
        r.1.toRat?.isSome ∧ r.2.toRat? = r.1.toRat? := by decide +kernel
    intro l
    obtain ⟨hsome, hsame⟩ := hall _ (weight_thirds l)
    obtain ⟨q, hq⟩ := Option.isSome_iff_exists.mp hsome
    exact ⟨q, hq, hsame.trans hq⟩
  have hsimplifiable : ∀ l, (thirds.weight l).IsSimplifiable ∧
      ((thirds.withWeights otherThirds).weight l).IsSimplifiable := by
    have hall : ∀ r ∈ [((⟨1, 3⟩, ⟨2, 6⟩) : Weight × Weight), (⟨4, 6⟩, ⟨2, 3⟩), (Weight.one, Weight.one)],
        (0 < r.1.denom.toInt ∧ r.1.num ≠ Int64.minValue) ∧ 0 < r.2.denom.toInt ∧ r.2.num ≠ Int64.minValue := by
      decide +kernel
    intro l
    obtain ⟨hp, hq⟩ := hall _ (weight_thirds l)
    exact ⟨⟨hp.1, hp.2⟩, ⟨hq.1, hq.2⟩⟩
  obtain ⟨g, d, log, hreduce⟩ : ∃ g d log, thirds.reduce #[] = .ok (g, d) log := ⟨_, _, _, rfl⟩
  obtain ⟨k, r, log₁, hround⟩ : ∃ k r log₁, thirds.reduceDyadic 2 .near #[] = .ok (k, r) log₁ := ⟨_, _, _, rfl⟩
  obtain ⟨hexact, hdyadic⟩ := reductions_correspond hvalues #[] #[]
  have hdyadic := hdyadic hsimplifiable 2 .near
  rw [hreduce] at hexact
  rw [hround] at hdyadic
  generalize (thirds.withWeights otherThirds).reduce #[] = x at *
  generalize (thirds.withWeights otherThirds).reduceDyadic 2 .near #[] = y at *
  cases hexact with
  | @ok _ s _ log' h =>
    cases hdyadic with
    | @ok _ t _ log₁' h' =>
      obtain ⟨g', d'⟩ := s
      obtain ⟨k', r'⟩ := t
      obtain ⟨rfl, -⟩ : d = d' ∧ _ := h
      obtain ⟨rfl, hadded⟩ : r = r' ∧ _ := h'
      exact ⟨g, g', d, log, log', hreduce, rfl, k, k', r, log₁, log₁', hround, rfl, hadded⟩

end Formula
end WeightedCnf

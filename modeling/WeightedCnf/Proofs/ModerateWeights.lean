import WeightedCnf.Proofs.CarefulReading
import WeightedCnf.Proofs.FormatDetection

/-! What becomes of a text has moderate numbers, even where reading it fails: no component of a weight is the least
number, no denominator has a sign, and the number of clauses is one that a header can hold. -/
namespace WeightedCnf

/-- The denominator has no sign, and both components have an absolute value. -/
structure Weight.IsModerate (w : Weight) : Prop where
  num : -2 ^ 63 < w.num.toInt
  denom : 0 ≤ w.denom.toInt

namespace Weight
variable {w s : Weight}

private theorem IsUnsigned.isModerate (h : w.IsUnsigned) : w.IsModerate :=
  ⟨lt_of_lt_of_le (by decide) h.num, h.denom⟩

private theorem IsUnsigned.isModerate_complement (h : w.IsUnsigned) (hs : w.complement = .ok s) : s.IsModerate := by
  obtain ⟨hnum, hdenom⟩ := complement_eq_ok hs
  have hlt := w.num.toInt_lt
  have hnonneg := h.denom
  exact ⟨by omega, hdenom ▸ hnonneg⟩

theorem IsModerate.exists_simplify (h : w.IsModerate) : ∃ s, w.simplify = .ok s := by
  refine Weight.exists_simplify (fun hmin => ?_) (ne_minValue h.denom)
  have hnum := h.num
  rw [hmin] at hnum
  exact absurd hnum (by decide)

end Weight

namespace Formula
variable {f g : Formula} {l : Literal} {v : Variable} {w : Weight}

/-- The weights are moderate, those of variables have no signs, and there are few enough clauses for a header. -/
structure IsModerate (f : Formula) : Prop where
  clauseCount_lt : f.clauseCount < 2 ^ 63
  weights : ∀ (l : Literal) w, f.weights[l]? = some w → w.IsModerate
  isUnsigned : ∀ (v : Variable) w, f.weights[v.positive]? = some w → w.IsUnsigned

private theorem isModerate_empty : ({} : Formula).IsModerate where
  clauseCount_lt := by decide
  weights l w hw := by simp at hw
  isUnsigned v w hw := by simp at hw

namespace IsModerate

private theorem congr (h : f.IsModerate) (hclauses : g.clauseCount < 2 ^ 63) (hweights : g.weights = f.weights) :
    g.IsModerate :=
  ⟨hclauses, hweights ▸ h.weights, hweights ▸ h.isUnsigned⟩

private theorem addLine (h : f.IsModerate) {line : Line} : (f.addLine line).IsModerate := h.congr h.clauseCount_lt rfl

private theorem addSupport (h : f.IsModerate) : (f.addSupport v).IsModerate := h.congr h.clauseCount_lt rfl

private theorem setWeight (h : f.IsModerate) (hw : w.IsModerate) (hl : l.positive = true → w.IsUnsigned) :
    (f.setWeight l w).IsModerate where
  clauseCount_lt := h.clauseCount_lt
  weights k u hu := by
    rcases getElem?_weights_setWeight hu with hu | ⟨-, rfl⟩
    · exact h.weights k u hu
    · exact hw
  isUnsigned v u hu := by
    rcases getElem?_weights_setWeight hu with hu | ⟨rfl, rfl⟩
    · exact h.isUnsigned v u hu
    · exact hl rfl

private theorem setWeight_unsigned (h : f.IsModerate) (hw : w.IsUnsigned) : (f.setWeight l w).IsModerate :=
  h.setWeight hw.isModerate fun _ => hw

private theorem completeWeights (h : f.IsModerate) (hg : f.completeWeights v = .ok g) : g.IsModerate := by
  unfold Formula.completeWeights at hg
  split at hg
  · rename_i w hw
    obtain ⟨s, hs, hret⟩ := bind_eq_ok.mp hg
    cases hret
    exact h.setWeight ((h.isUnsigned v w hw).isModerate_complement hs) (nomatch ·)
  · cases hg
    exact (h.setWeight_unsigned Weight.isUnsigned_half).setWeight_unsigned Weight.isUnsigned_half

private theorem completeAllWeights (h : f.IsModerate) (hg : f.completeAllWeights = .ok g) : g.IsModerate := by
  obtain ⟨vs, -, hrun⟩ := bind_eq_ok.mp hg
  clear hg
  induction vs generalizing f with
  | nil =>
    cases hrun
    exact h
  | cons v vs ih =>
    obtain ⟨k, hk, hrest⟩ := bind_eq_ok.mp hrun
    exact ih (h.completeWeights hk) hrest

/-- A weight that was not given is moderate, too. -/
theorem weight (h : f.IsModerate) (l : Literal) : (f.weight l).IsModerate := by
  unfold Formula.weight
  cases hl : f.weights[l]? with
  | none => exact Weight.isUnsigned_one.isModerate
  | some w => exact h.weights l w hl

end IsModerate
end Formula

namespace Reading
open ByteStream (integer)
variable {σ α β : Type} {x y : Reading σ α}

/-- Whether it fails or not, from a moderate formula this part of reading leads to a moderate one. -/
def KeepsModerate (x : Reading σ α) : Prop :=
  ∀ r, r.formula.IsModerate → (left (x r)).formula.IsModerate

private theorem moderate_pure (a : α) : KeepsModerate (pure a : Reading σ α) := fun _ hr => hr

private theorem moderate_throw (e : Stop FormulaError) : KeepsModerate (throw e : Reading σ α) := fun _ hr => hr

private theorem KeepsModerate.bind_ok {f : α → Reading σ β} (hx : KeepsModerate x)
    (hf : ∀ r a r', x r = .ok a r' → KeepsModerate (f a)) : KeepsModerate (x >>= f) := by
  intro r hr
  have hleft := hx r hr
  change (left (EStateM.bind x f r)).formula.IsModerate
  unfold EStateM.bind
  cases hxr : x r with
  | error e r₁ => rwa [hxr] at hleft
  | ok a r₁ =>
    rw [hxr] at hleft
    exact hf r a r₁ hxr r₁ hleft

private theorem KeepsModerate.bind {f : α → Reading σ β} (hx : KeepsModerate x) (hf : ∀ a, KeepsModerate (f a)) :
    KeepsModerate (x >>= f) :=
  hx.bind_ok fun _ a _ _ => hf a

private theorem moderate_bind_get {f : Reader σ → Reading σ α} (h : ∀ r, r.formula.IsModerate → KeepsModerate (f r)) :
    KeepsModerate (get >>= f) :=
  fun r hr => h r hr r hr

private theorem KeepsModerate.ite {c : Prop} [Decidable c] (hx : KeepsModerate x) (hy : KeepsModerate y) :
    KeepsModerate (if c then x else y) := by
  by_cases hc : c
  · rwa [if_pos hc]
  · rwa [if_neg hc]

private theorem KeepsModerate.within (h : KeepsModerate x) (context : FormulaError → FormulaError) :
    KeepsModerate (within context x) := by
  intro r hr
  rw [left_within]
  exact h r hr

private theorem moderate_onStream (x : EStateM StreamError σ α) : KeepsModerate (onStream x) := by
  intro r hr
  unfold onStream
  cases x r.stream <;> exact hr

private theorem moderate_onFormula {f : Formula → Formula} (h : ∀ g : Formula, g.IsModerate → (f g).IsModerate) :
    KeepsModerate (onFormula f : Reading σ Unit) := fun r hr => h r.formula hr

private theorem moderate_addLine (line : Line) : KeepsModerate (onFormula (·.addLine line) : Reading σ Unit) :=
  moderate_onFormula fun _ hg => hg.addLine

private theorem moderate_report (event : Event) : KeepsModerate (report event : Reading σ Unit) := fun _ hr => hr

private theorem moderate_modify_format (format : WeightFormat) :
    KeepsModerate (modify fun r => { r with format } : Reading σ PUnit) := fun _ hr => hr

private theorem moderate_require (c : Bool) (e : FormulaError) : KeepsModerate (require c e : Reading σ Unit) :=
  .ite (moderate_pure ()) (moderate_throw _)

private theorem moderate_assume (x : Except Fault α) : KeepsModerate (assume x : Reading σ α) := by
  cases x with
  | ok a => exact moderate_pure a
  | error e => exact moderate_throw _

private theorem moderate_settle (format : WeightFormat) : KeepsModerate (settle format : Reading σ Unit) :=
  (moderate_report _).bind fun _ => (moderate_addLine _).bind fun _ => moderate_modify_format format

private theorem moderate_recordWeight (l : Literal) (text : List Char) :
    KeepsModerate (recordWeight l text : Reading σ Unit) := by
  unfold recordWeight
  cases hread : Weight.read text with
  | ok w => exact moderate_onFormula fun _ hg => hg.setWeight_unsigned (Weight.isUnsigned_of_read hread)
  | error e =>
    exact (moderate_report _).bind fun _ =>
      moderate_onFormula fun _ hg => hg.setWeight_unsigned Weight.isUnsigned_invalid

private theorem moderate_meetWeightLine : KeepsModerate (meetWeightLine : Reading σ Unit) := by
  refine moderate_bind_get fun r _ => ?_
  cases r.format with
  | minic2d => exact moderate_throw _
  | detect => exact moderate_modify_format _
  | _ => exact moderate_pure _

private theorem moderate_meetLiteral (l : Literal) : KeepsModerate (meetLiteral l : Reading σ Unit) := by
  refine .ite (moderate_pure _) (moderate_bind_get fun r _ => ?_)
  cases r.format with
  | cachet => exact moderate_throw _
  | cachetOrMc20 => exact moderate_settle _
  | _ => exact moderate_pure _

private theorem moderate_meetNoWeight : KeepsModerate (meetNoWeight : Reading σ Unit) := by
  refine moderate_bind_get fun r _ => ?_
  cases r.format with
  | cachetOrMc20 => exact moderate_settle _
  | cachet => exact moderate_pure _
  | _ => exact moderate_throw _

private theorem moderate_complete : KeepsModerate (complete : Reading σ Unit) := by
  refine moderate_bind_get fun r hr => ?_
  cases hcomplete : r.formula.completeAllWeights with
  | ok g => exact moderate_onFormula fun _ _ => hr.completeAllWeights hcomplete
  | error cause => exact moderate_throw _

private theorem moderate_finish : KeepsModerate (finish : Reading σ Unit) := by
  refine moderate_bind_get fun r _ => ?_
  cases r.format with
  | cachetOrMc20 => exact (moderate_settle _).bind fun _ => moderate_complete
  | cachet => exact moderate_complete
  | _ => exact moderate_pure _

variable [ByteStream σ]

/-- The number of clauses was read as a signed word. -/
private theorem moderate_header : KeepsModerate (header : Reading σ Unit) := by
  refine (moderate_onStream _).bind fun _ => (moderate_require _ _).bind fun _ => (moderate_onStream _).bind
    fun variableCount => (moderate_onStream integer).bind_ok fun r clauseCount r' hread =>
      (moderate_require _ _).bind fun _ => (moderate_require _ _).bind fun _ => (moderate_report _).bind fun _ =>
        moderate_onFormula fun g hg => hg.congr ?_ rfl
  obtain ⟨s, hs⟩ : ∃ s, integer r.stream = .ok clauseCount s := by
    unfold onStream at hread
    split at hread
    · rename_i n s hn
      cases hread
      exact ⟨s, hn⟩
    · cases hread
  exact (Int.toNat_lt' (by decide)).mpr (integer_lt hs)

private theorem moderate_literal : KeepsModerate (literal : Reading σ Literal) :=
  (moderate_onStream _).bind fun _ => moderate_bind_get fun _ _ => (moderate_require _ _).bind fun _ =>
    moderate_assume _

private theorem moderate_weightLine : KeepsModerate (weightLine : Reading σ Unit) :=
  (moderate_onStream _).bind fun _ => (moderate_require _ _).bind fun _ => moderate_meetWeightLine.bind fun _ =>
    moderate_literal.bind fun l => (moderate_meetLiteral l).bind fun _ => (moderate_onStream _).bind fun weight =>
      .ite (moderate_meetNoWeight.bind fun _ => moderate_onFormula fun _ hg =>
          (hg.setWeight_unsigned Weight.isUnsigned_one).setWeight_unsigned Weight.isUnsigned_one)
        (moderate_recordWeight l weight)

private theorem moderate_nextWord (words : List (List Char)) :
    KeepsModerate (nextWord words : Reading σ (List Char × List (List Char))) := by
  cases words with
  | nil => exact (moderate_onStream _).bind fun _ => moderate_pure _
  | cons word words => exact moderate_pure _

private theorem moderate_supportList (fuel : Nat) (words : List (List Char)) :
    KeepsModerate (supportList fuel words : Reading σ Unit) := by
  induction fuel generalizing words with
  | zero => exact moderate_pure _
  | succ fuel ih =>
    refine (moderate_nextWord words).bind fun (word, words) => ?_
    dsimp only
    cases ByteStream.integer? word with
    | none => exact moderate_throw _
    | some n =>
      exact .ite (moderate_pure _) (moderate_bind_get fun _ _ => (moderate_require _ _).bind fun _ =>
        (moderate_assume _).bind fun _ =>
          (moderate_onFormula fun _ hg => hg.addSupport).bind fun _ => ih words)

private theorem moderate_weightList (count number : Nat) (words : List (List Char)) :
    KeepsModerate (weightList count number words : Reading σ Unit) := by
  induction count generalizing number words with
  | zero => exact moderate_pure _
  | succ count ih =>
    exact (moderate_assume _).bind fun v => ((moderate_nextWord words).within _).bind fun (weight, words) =>
      (moderate_recordWeight _ weight).bind fun _ => ((moderate_nextWord words).within _).bind
        fun (weight, words) => (moderate_recordWeight _ weight).bind fun _ => ih (number + 1) words

private theorem moderate_comment : KeepsModerate (comment : Reading σ Unit) := by
  refine (moderate_onStream _).bind fun _ => (moderate_onStream _).bind fun rest => moderate_bind_get fun r _ => ?_
  refine .ite (moderate_supportList _ _) (.ite (.ite ?_ (moderate_weightList _ _ _)) (moderate_addLine _))
  exact (moderate_settle _).bind fun _ => moderate_weightList _ _ _

private theorem moderate_item (first : UInt8) : KeepsModerate (item first : Reading σ Unit) :=
  .ite moderate_header (.ite moderate_weightLine (.ite moderate_comment
    ((moderate_onStream _).bind fun _ => moderate_addLine _)))

private theorem moderate_file (fuel : Nat) : KeepsModerate (file fuel : Reading σ Unit) := by
  induction fuel with
  | zero => exact moderate_finish
  | succ fuel ih =>
    refine (moderate_onStream _).bind fun _ => moderate_bind_get fun r _ => (moderate_onStream _).bind fun next => ?_
    cases next with
    | none => exact moderate_finish
    | some first => exact ((moderate_item first).within _).bind fun _ => (moderate_onStream _).bind fun _ => ih

end Reading

namespace Formula
variable {f : Formula} {log log' : Log} {format : WeightFormat}

theorem isModerate_of_readFrom {σ : Type} [ByteStream σ] {stream : σ}
    (h : readFrom stream format log = .ok f log') : f.IsModerate := by
  have hmoderate := Reading.moderate_file (ByteStream.unread stream + 1) { stream, format, log } isModerate_empty
  obtain ⟨r, ⟨hfile, rfl, -⟩ | ⟨e, hfile, rfl, -⟩⟩ := readFrom_eq_ok h <;> rw [hfile] at hmoderate
  · exact hmoderate.congr hmoderate.clauseCount_lt rfl
  · exact hmoderate.congr (Nat.two_pow_pos 63) rfl

end Formula
end WeightedCnf

import Mathlib.Logic.Relation
import WeightedCnf.Formula.Reading

/-! How the weight format changes while a text is read. It only moves on, by a few steps, and it does so even where
reading fails. -/
namespace WeightedCnf

namespace WeightFormat

/-- What one line, or the end of the text, can make of a format. -/
inductive Next : WeightFormat → WeightFormat → Prop
  | weightLine : Next .detect .cachetOrMc20
  | weightList : Next .detect .minic2d
  | negativeLiteral : Next .cachetOrMc20 .mc20
  | missingWeight : Next .cachetOrMc20 .cachet

theorem not_next_minic2d (a : WeightFormat) : ¬ minic2d.Next a := nofun

/-- What reading can make of a format. -/
def Leads : WeightFormat → WeightFormat → Prop :=
  Relation.ReflTransGen Next

/-- From a format that nothing follows, reading does not move. -/
theorem Leads.eq {a b : WeightFormat} (h : a.Leads b) (ha : ∀ c, ¬ a.Next c) : b = a := by
  rcases Relation.ReflTransGen.cases_head h with rfl | ⟨c, hc, -⟩
  · rfl
  · exact absurd hc (ha c)

end WeightFormat

namespace Reading
open ByteStream (skipBlanks skipLine token integer)
variable {σ α β : Type} {r : Reader σ} {x y : Reading σ α}

/-- The reader that a computation leaves, whether it fails or not. -/
def left : EStateM.Result (Stop FormulaError) (Reader σ) α → Reader σ
  | .ok _ r => r
  | .error _ r => r

/-- From this reader the computation makes of the format what reading can make of it. -/
def LeadsFrom (r : Reader σ) (x : Reading σ α) : Prop :=
  r.format.Leads (left (x r)).format

theorem LeadsFrom.of_ok {r₁ : Reader σ} {a : α} (h : LeadsFrom r x) (hok : x r = .ok a r₁) :
    r.format.Leads r₁.format := by
  rwa [LeadsFrom, hok] at h

theorem leads_pure (a : α) : LeadsFrom r (pure a) := .refl

theorem leads_throw (e : Stop FormulaError) : LeadsFrom r (throw e : Reading σ α) := .refl

theorem LeadsFrom.bind {f : α → Reading σ β} (hx : LeadsFrom r x) (hf : ∀ a r', LeadsFrom r' (f a)) :
    LeadsFrom r (x >>= f) := by
  unfold LeadsFrom at hx ⊢
  change r.format.Leads (left (EStateM.bind x f r)).format
  unfold EStateM.bind
  cases hxr : x r with
  | error e r₁ => rwa [hxr] at hx
  | ok a r₁ =>
    rw [hxr] at hx
    exact hx.trans (hf a r₁)

/-- Where nothing follows the format, it stays as it is. -/
theorem format_left_bind (format : WeightFormat) (hlast : ∀ c, ¬ format.Next c) {f : α → Reading σ β}
    (hx : (left (x r)).format = format) (hf : ∀ a r', LeadsFrom r' (f a)) :
    (left ((x >>= f) r)).format = format := by
  change (left (EStateM.bind x f r)).format = format
  unfold EStateM.bind
  cases hxr : x r with
  | error e r₁ => rwa [hxr] at hx
  | ok a r₁ =>
    rw [hxr] at hx
    exact WeightFormat.Leads.eq (a := format) (hx ▸ hf a r₁) hlast

theorem leads_bind_get {f : Reader σ → Reading σ α} (h : LeadsFrom r (f r)) : LeadsFrom r (get >>= f) := h

theorem LeadsFrom.ite {c : Prop} [Decidable c] (hx : c → LeadsFrom r x) (hy : ¬ c → LeadsFrom r y) :
    LeadsFrom r (if c then x else y) := by
  by_cases hc : c
  · rw [if_pos hc]
    exact hx hc
  · rw [if_neg hc]
    exact hy hc

theorem left_within (context : FormulaError → FormulaError) : left (within context x r) = left (x r) := by
  change left (EStateM.adaptExcept _ x r) = _
  unfold EStateM.adaptExcept
  cases x r <;> rfl

theorem LeadsFrom.within (h : LeadsFrom r x) (context : FormulaError → FormulaError) :
    LeadsFrom r (within context x) := by
  rwa [LeadsFrom, left_within]

theorem leads_onStream (x : EStateM StreamError σ α) : LeadsFrom r (onStream x) := by
  unfold LeadsFrom onStream
  cases x r.stream with
  | ok a s => exact .refl
  | error e s => exact .refl

theorem leads_onFormula (f : Formula → Formula) : LeadsFrom r (onFormula f) := .refl

theorem leads_report (event : Event) : LeadsFrom r (report event) := .refl

private theorem leads_require (c : Bool) (e : FormulaError) : LeadsFrom r (require c e) :=
  .ite (fun _ => leads_pure ()) fun _ => leads_throw _

private theorem leads_assume (x : Except Fault α) : LeadsFrom r (assume x) := by
  cases x with
  | ok a => exact leads_pure a
  | error e => exact leads_throw _

theorem leads_settle {format : WeightFormat} (h : r.format.Next format) : LeadsFrom r (settle format) := .single h

private theorem leads_recordWeight (l : Literal) (text : List Char) : LeadsFrom r (recordWeight l text) := by
  unfold recordWeight
  cases Weight.read text with
  | ok w => exact leads_onFormula _
  | error e => exact (leads_report _).bind fun _ _ => leads_onFormula _

theorem leads_meetWeightLine (r : Reader σ) : LeadsFrom r meetWeightLine := by
  obtain ⟨stream, format, formula, log⟩ := r
  cases format with
  | detect => exact .single .weightLine
  | _ => exact .refl

theorem leads_meetLiteral (l : Literal) (r : Reader σ) : LeadsFrom r (meetLiteral l) := by
  refine .ite (fun _ => leads_pure _) fun _ => leads_bind_get ?_
  obtain ⟨stream, format, formula, log⟩ := r
  cases format with
  | cachetOrMc20 => exact leads_settle .negativeLiteral
  | _ => exact .refl

theorem leads_meetNoWeight (r : Reader σ) : LeadsFrom r meetNoWeight := by
  obtain ⟨stream, format, formula, log⟩ := r
  cases format with
  | cachetOrMc20 => exact .single .missingWeight
  | _ => exact .refl

theorem leads_finish (r : Reader σ) : LeadsFrom r finish := by
  have hcomplete (r : Reader σ) : LeadsFrom r complete :=
    leads_bind_get ((leads_assume _).bind fun _ _ => leads_onFormula _)
  apply leads_bind_get
  obtain ⟨stream, format, formula, log⟩ := r
  cases format with
  | cachetOrMc20 => exact (leads_settle .missingWeight).bind fun _ => hcomplete
  | cachet => exact hcomplete _
  | _ => exact .refl

variable [ByteStream σ]

private theorem leads_nextWord (words : List (List Char)) : LeadsFrom r (nextWord words) := by
  cases words with
  | nil => exact (leads_onStream _).bind fun _ _ => leads_pure _
  | cons word words => exact leads_pure _

private theorem leads_literal (r : Reader σ) : LeadsFrom r literal :=
  (leads_onStream _).bind fun _ _ => leads_bind_get ((leads_require _ _).bind fun _ _ => leads_assume _)

private theorem leads_header (r : Reader σ) : LeadsFrom r header :=
  (leads_onStream _).bind fun _ _ => (leads_require _ _).bind fun _ _ => (leads_onStream _).bind fun _ _ =>
    (leads_onStream _).bind fun _ _ => (leads_require _ _).bind fun _ _ => (leads_require _ _).bind fun _ _ =>
      (leads_report _).bind fun _ _ => leads_onFormula _

private theorem leads_weightLine (r : Reader σ) : LeadsFrom r weightLine :=
  (leads_onStream _).bind fun _ _ => (leads_require _ _).bind fun _ _ => (leads_meetWeightLine _).bind fun _ _ =>
    (leads_literal _).bind fun l _ => (leads_meetLiteral l _).bind fun _ _ => (leads_onStream _).bind fun weight _ =>
      .ite (fun _ => (leads_meetNoWeight _).bind fun _ _ => leads_onFormula _) fun _ => leads_recordWeight l weight

private theorem leads_supportList (fuel : Nat) (words : List (List Char)) (r : Reader σ) :
    LeadsFrom r (supportList fuel words) := by
  induction fuel generalizing words r with
  | zero => exact leads_pure _
  | succ fuel ih =>
    refine (leads_nextWord words).bind fun (word, words) r₁ => ?_
    dsimp only
    cases ByteStream.integer? word with
    | none => exact leads_throw _
    | some n =>
      exact .ite (fun _ => leads_pure _) fun _ => leads_bind_get ((leads_require _ _).bind fun _ _ =>
        (leads_assume _).bind fun _ _ => (leads_onFormula _).bind fun _ => ih words)

theorem leads_weightList (count number : Nat) (words : List (List Char)) (r : Reader σ) :
    LeadsFrom r (weightList count number words) := by
  induction count generalizing number words r with
  | zero => exact leads_pure _
  | succ count ih =>
    exact (leads_assume _).bind fun v _ => ((leads_nextWord words).within _).bind fun (weight, words) _ =>
      (leads_recordWeight _ weight).bind fun _ _ => ((leads_nextWord words).within _).bind
        fun (weight, words) _ => (leads_recordWeight _ weight).bind fun _ => ih (number + 1) words

private theorem leads_comment (r : Reader σ) : LeadsFrom r comment := by
  refine (leads_onStream _).bind fun _ _ => (leads_onStream _).bind fun rest r₁ => leads_bind_get ?_
  refine .ite (fun _ => leads_supportList _ _ _) fun _ => .ite (fun _ => ?_) fun _ => leads_onFormula _
  refine .ite (fun hdetect => (leads_settle ?_).bind fun _ => leads_weightList _ _ _) fun _ => leads_weightList _ _ _ _
  rw [hdetect]
  exact .weightList

private theorem leads_item (first : UInt8) (r : Reader σ) : LeadsFrom r (item first) :=
  .ite (fun _ => leads_header r) fun _ => .ite (fun _ => leads_weightLine r) fun _ =>
    .ite (fun _ => leads_comment r) fun _ => (leads_onStream _).bind fun _ _ => leads_onFormula _

/-- Reading a file moves the format on, line by line. -/
theorem leads_file (fuel : Nat) (r : Reader σ) : LeadsFrom r (file fuel) := by
  induction fuel generalizing r with
  | zero => exact leads_finish r
  | succ fuel ih =>
    refine (leads_onStream _).bind fun _ _ => leads_bind_get ((leads_onStream _).bind fun next r₂ => ?_)
    cases next with
    | none => exact leads_finish r₂
    | some first => exact ((leads_item first r₂).within _).bind fun _ _ => (leads_onStream _).bind fun _ => ih

end Reading

namespace Formula
variable {σ : Type} [ByteStream σ] {stream : σ} {format : WeightFormat} {f : Formula} {log log' : Log}

/-- A formula is what the reader has at the end of the file, or, without its counts, what it has at an error, which is
logged. -/
theorem readFrom_eq_ok (h : readFrom stream format log = .ok f log') : ∃ r,
    (Reading.file (ByteStream.unread stream + 1) { stream, format, log } = .ok () r ∧
      f = { r.formula with format := r.format } ∧ log' = r.log) ∨
    ∃ e, Reading.file (ByteStream.unread stream + 1) { stream, format, log } = .error (.error e) r ∧
      f = { r.formula.setCounts 0 0 with format := r.format } ∧ log' = r.log.push (.formulaNotRead e) := by
  unfold readFrom at h
  cases hfile : Reading.file (ByteStream.unread stream + 1) { stream, format, log } with
  | ok u r =>
    rw [hfile] at h
    cases h
    exact ⟨r, .inl ⟨rfl, rfl, rfl⟩⟩
  | error stop r =>
    rw [hfile] at h
    cases stop with
    | error e =>
      cases h
      exact ⟨r, .inr ⟨e, rfl, rfl, rfl⟩⟩
    | fault cause => cases h

/-- A formula without a complaint is the one that the reader has at the end of the file. -/
theorem file_of_readFrom (h : readFrom stream format log = .ok f log')
    (haccepted : ∀ e, .formulaNotRead e ∉ log'.toList) :
    ∃ r, Reading.file (ByteStream.unread stream + 1) { stream, format, log } = .ok () r ∧
      f = { r.formula with format := r.format } ∧ log' = r.log := by
  obtain ⟨r, hfile | ⟨e, -, -, rfl⟩⟩ := readFrom_eq_ok h
  · exact ⟨r, hfile⟩
  · exact absurd (by simp) (haccepted e)

/-- The format of a formula is the one in force when reading stopped. -/
theorem format_readFrom (h : readFrom stream format log = .ok f log') : f.format =
    (Reading.left (Reading.file (ByteStream.unread stream + 1) { stream, format, log })).format := by
  obtain ⟨r, ⟨hfile, rfl, -⟩ | ⟨e, hfile, rfl, -⟩⟩ := readFrom_eq_ok h <;> rw [hfile] <;> rfl

end Formula
end WeightedCnf

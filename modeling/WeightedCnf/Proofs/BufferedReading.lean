import WeightedCnf.Formula.Reading
import WeightedCnf.Proofs.Agreement
import WeightedCnf.Proofs.Outcomes

/-! A formula that is read through a buffer is the one that is read from its bytes at once. -/
namespace WeightedCnf
open ByteStream (skipBlanks skipLine restOfLine token integer)

/-- The streams are related, and what was made of them is the same. -/
structure Readers {σ τ : Type} (R : σ → τ → Prop) (r : Reader σ) (r' : Reader τ) : Prop where
  stream : R r.stream r'.stream
  format : r.format = r'.format
  formula : r.formula = r'.formula
  log : r.log = r'.log

namespace Reading
variable {σ τ α β : Type} {D : Stop FormulaError → Stop FormulaError → Prop} {R S : σ → τ → Prop}

private theorem readers_mono (hRS : ∀ s t, R s t → S s t) : ∀ r r', Readers R r r' → Readers S r r' :=
  fun _ _ h => { h with stream := hRS _ _ h.stream }

/-- Steps of reading have the same outcome and the same progress, errors as far as `D` tells them apart. After an error
the streams do not matter. -/
abbrev Alike (D : Stop FormulaError → Stop FormulaError → Prop) (R S : σ → τ → Prop) (x : Reading σ α)
    (y : Reading τ α) : Prop :=
  Agree D (Readers fun _ _ => True) (Readers R) (Readers S) x y

theorem agree_onStream {C : StreamError → StreamError → Prop} {E : σ → τ → Prop} {x : EStateM StreamError σ α}
    {y : EStateM StreamError τ α} (hCD : ∀ e e', C e e' → D (.error (.stream e)) (.error (.stream e')))
    (h : Agree C E R S x y) : Alike D R S (onStream x) (onStream y) := by
  intro r r' hr
  unfold onStream
  have hxy := h _ _ hr.stream
  generalize x r.stream = s, y r'.stream = s' at hxy
  cases hxy with
  | ok h => exact .ok { hr with stream := h }
  | error hC _ => exact .error (hCD _ _ hC) { hr with stream := trivial }

theorem agree_onFormula (f : Formula → Formula) :
    Alike D R R (onFormula f) (onFormula f) :=
  .modify fun _ _ h => { h with formula := congrArg f h.formula }

private theorem agree_report (event : Event) :
    Alike D R R (report event) (report event) :=
  .modify fun _ _ h => { h with log := congrArg (·.push event) h.log }

theorem agree_settle (format : WeightFormat) :
    Alike D R R (settle format) (settle format) :=
  (agree_report _).bind fun _ => (agree_onFormula _).bind fun _ => .modify fun _ _ h => { h with format := rfl }

theorem agree_recordWeight (l : Literal) (text : List Char) :
    Alike D R R (recordWeight l text) (recordWeight l text) := by
  unfold recordWeight
  cases Weight.read text with
  | ok w => exact agree_onFormula _
  | error e => exact (agree_report _).bind fun _ => agree_onFormula _

theorem agree_within {context context' : FormulaError → FormulaError} {x : Reading σ α} {y : Reading τ α}
    (hcontext : ∀ e e', D e e' → D (e.map context) (e'.map context')) (h : Alike D R S x y) :
    Alike D R S (within context x) (within context' y) := by
  intro r r' hr
  change SameResult _ _ _ (EStateM.adaptExcept _ x r) (EStateM.adaptExcept _ y r')
  unfold EStateM.adaptExcept
  have hxy := h _ _ hr
  generalize x r = s, y r' = s' at hxy
  cases hxy with
  | ok h => exact .ok h
  | error hD h => exact .error (hcontext _ _ hD) h

section Steps
variable [Std.Refl D]

private theorem agree_refuse (e : FormulaError) :
    Alike (α := α) D R S (refuse e) (refuse e) :=
  .throw (readers_mono fun _ _ _ => trivial) (Std.Refl.refl _)

private theorem agree_require (c : Bool) (e : FormulaError) :
    Alike D R R (require c e) (require c e) :=
  .ite (.pure _) (agree_refuse e)

theorem agree_assume (x : Except Fault α) :
    Alike D R R (assume x) (assume x) := by
  cases x with
  | ok a => exact .pure a
  | error e => exact .throw (readers_mono fun _ _ _ => trivial) (Std.Refl.refl _)

theorem agree_meetWeightLine : Alike D R R meetWeightLine meetWeightLine := by
  refine .bind_get fun r r' h => ?_
  rw [h.format]
  cases r'.format with
  | minic2d => exact agree_refuse _
  | detect => exact .modify fun _ _ h => { h with format := rfl }
  | _ => exact .pure _

theorem agree_meetLiteral (l : Literal) : Alike D R R (meetLiteral l) (meetLiteral l) := by
  refine .ite (.pure _) (.bind_get fun r r' h => ?_)
  rw [h.format]
  cases r'.format with
  | cachet => exact agree_refuse _
  | cachetOrMc20 => exact agree_settle _
  | _ => exact .pure _

theorem agree_meetNoWeight : Alike D R R meetNoWeight meetNoWeight := by
  refine .bind_get fun r r' h => ?_
  rw [h.format]
  cases r'.format with
  | cachetOrMc20 => exact agree_settle _
  | cachet => exact .pure _
  | _ => exact agree_refuse _

theorem agree_finish : Alike D R R finish finish := by
  have hcomplete : Alike D R R complete complete := by
    refine .bind_get fun r r' h => ?_
    rw [h.formula]
    exact (agree_assume _).bind fun f => agree_onFormula _
  refine .bind_get fun r r' h => ?_
  rw [h.format]
  cases r'.format with
  | cachetOrMc20 => exact (agree_settle _).bind fun _ => hcomplete
  | cachet => exact hcomplete
  | _ => exact .pure _

end Steps

variable [ByteStream σ] [ByteStream τ] {C : StreamError → StreamError → Prop} {E P : σ → τ → Prop}

/-- Errors of streams that are related by `C` are related by `D` as errors of reading, and so they stay when they are
seen from further out. -/
structure Relaying (C : StreamError → StreamError → Prop) (D : Stop FormulaError → Stop FormulaError → Prop)
    (R : σ → τ → Prop) : Prop where
  stream : ∀ e e', C e e' → D (.error (.stream e)) (.error (.stream e'))
  inWeightOf : ∀ l e e', D e e' → D (e.map (.inWeightOf l)) (e'.map (.inWeightOf l))
  onLine : ∀ s t e e', R s t → D e e' →
    D (e.map (.onLine (ByteStream.position s).line)) (e'.map (.onLine (ByteStream.position t).line))

/-- When errors are the same, streams stand at the same place. -/
theorem relaying_eq (h : Matching Eq E R P) : Relaying Eq Eq R where
  stream _ _ he := congrArg (Stop.error ∘ FormulaError.stream) he
  inWeightOf l _ _ he := congrArg (Stop.map (FormulaError.inWeightOf l)) he
  onLine s t e e' hR he := by
    rw [StreamError.missingToken.inj (h.place s t .missingToken hR), he]

variable (h : Matching C E R P) (hD : Relaying C D R)
include h hD

private theorem agree_looked {x : EStateM StreamError σ α} {y : EStateM StreamError τ α} (hxy : Agree C E R P x y) :
    Alike D R R (onStream x) (onStream y) :=
  (agree_onStream hD.stream hxy).mono (fun _ _ hr => hr) (readers_mono h.looked)

private theorem agree_nextWord (words : List (List Char)) :
    Alike D R R (nextWord (σ := σ) words) (nextWord (σ := τ) words) := by
  unfold nextWord
  cases words with
  | nil => exact (agree_looked h hD (ByteStream.agree_token h)).bind fun _ => .pure _
  | cons word words => exact .pure _

private theorem agree_otherLine : Alike D R R (otherLine (σ := σ)) (otherLine (σ := τ)) :=
  (agree_looked h hD (ByteStream.agree_restOfLine h)).bind fun _ => agree_onFormula _

variable [Std.Refl D]

private theorem agree_literal : Alike D R R (literal (σ := σ)) (literal (σ := τ)) := by
  refine (agree_looked h hD (ByteStream.agree_integer h)).bind fun n => .bind_get fun r r' hr => ?_
  rw [hr.formula]
  exact (agree_require _ _).bind fun _ => agree_assume _

private theorem agree_supportList (fuel : Nat) (words : List (List Char)) :
    Alike D R R (supportList (σ := σ) fuel words) (supportList (σ := τ) fuel words) := by
  induction fuel generalizing words with
  | zero => exact .pure _
  | succ fuel ih =>
    refine (agree_nextWord h hD words).bind fun (word, words) => ?_
    dsimp only
    cases ByteStream.integer? word with
    | none => exact agree_refuse _
    | some n =>
      refine .ite (.pure _) (.bind_get fun r r' hr => ?_)
      rw [hr.formula]
      exact (agree_require _ _).bind fun _ => (agree_assume _).bind fun _ => (agree_onFormula _).bind fun _ => ih words

private theorem agree_weightList (count number : Nat) (words : List (List Char)) :
    Alike D R R (weightList (σ := σ) count number words) (weightList (σ := τ) count number words) := by
  induction count generalizing number words with
  | zero => exact .pure _
  | succ count ih =>
    have hword (l : Literal) (words : List (List Char)) := agree_within (hD.inWeightOf l) (agree_nextWord h hD words)
    exact (agree_assume _).bind fun v => (hword _ words).bind fun (weight, words) =>
      (agree_recordWeight _ weight).bind fun _ => (hword _ words).bind fun (weight, words) =>
        (agree_recordWeight _ weight).bind fun _ => ih (number + 1) words

private theorem agree_comment : Alike D P R (comment (σ := σ)) (comment (σ := τ)) := by
  have hpass : Alike D P R (onStream (modify (ByteStream.pass (σ := σ))))
      (onStream (modify (ByteStream.pass (σ := τ)))) :=
    agree_onStream (E := E) hD.stream (.modify h.pass)
  unfold comment
  refine hpass.bind fun _ => (agree_looked h hD (ByteStream.agree_restOfLine h)).bind fun rest =>
    .bind_get fun r r' hr => ?_
  rw [h.unread _ _ hr.stream, hr.format, hr.formula]
  dsimp only
  split
  · exact agree_supportList h hD _ _
  split
  · split
    · exact (agree_settle _).bind fun _ => agree_weightList h hD _ _ _
    · exact agree_weightList h hD _ _ _
  · exact agree_onFormula _

variable (hpasses : ∀ bytes, bytes.length ≤ 6 →
  Agree C E R R (ByteStream.passPrefix (σ := σ) bytes) (ByteStream.passPrefix (σ := τ) bytes))
include hpasses

private theorem agree_header : Alike D R R (header (σ := σ)) (header (σ := τ)) := by
  have hinteger := agree_looked h hD (ByteStream.agree_integer h)
  exact (agree_onStream hD.stream (hpasses _ (by decide))).bind fun _ => (agree_require _ _).bind fun _ =>
    hinteger.bind fun _ => hinteger.bind fun _ => (agree_require _ _).bind fun _ => (agree_require _ _).bind fun _ =>
      (agree_report _).bind fun _ => agree_onFormula _

private theorem agree_weightLine : Alike D R R (weightLine (σ := σ)) (weightLine (σ := τ)) := by
  refine (agree_onStream hD.stream (hpasses _ (by decide))).bind fun _ => (agree_require _ _).bind fun _ =>
    agree_meetWeightLine.bind fun _ => (agree_literal h hD).bind fun l => (agree_meetLiteral l).bind fun _ =>
      (agree_looked h hD (ByteStream.agree_token h)).bind fun weight => ?_
  exact .ite (agree_meetNoWeight.bind fun _ => agree_onFormula _) (agree_recordWeight _ _)

theorem agree_item (first : UInt8) : Alike D P R (item (σ := σ) first) (item (σ := τ) first) := by
  have hmono {x : Reading σ Unit} {y : Reading τ Unit} (hxy : Alike D R R x y) : Alike D P R x y :=
    hxy.mono (readers_mono h.looked) fun _ _ hr => hr
  exact .ite (hmono (agree_header h hD hpasses)) (.ite (hmono (agree_weightLine h hD hpasses))
    (.ite (agree_comment h hD) (hmono (agree_otherLine h hD))))

theorem agree_file (fuel : Nat) : Alike D R R (file (σ := σ) fuel) (file (σ := τ) fuel) := by
  induction fuel with
  | zero => exact agree_finish
  | succ fuel ih =>
    refine (agree_looked h hD (ByteStream.agree_skipBlanks h)).bind fun _ => .bind_get fun r r' hr => ?_
    have hline := (hD.onLine _ _ · · hr.stream)
    refine (agree_onStream hD.stream h.peek).bind fun first => ?_
    cases first with
    | none => exact agree_finish.mono (readers_mono h.looked) fun _ _ hr => hr
    | some first =>
      exact (agree_within hline (agree_item h hD hpasses first)).bind fun _ =>
        (agree_onStream hD.stream (ByteStream.agree_skipLine h h.pass)).bind fun _ => ih

end Reading

namespace Formula

/-- The same formula is read from streams that answer alike. -/
theorem readFrom_congr {σ τ : Type} [ByteStream σ] [ByteStream τ] {E R P : σ → τ → Prop} (h : Matching Eq E R P)
    (hpasses : ∀ bytes, bytes.length ≤ 6 →
      Agree Eq E R R (ByteStream.passPrefix (σ := σ) bytes) (ByteStream.passPrefix (σ := τ) bytes))
    {s : σ} {t : τ} (hR : R s t) (format : WeightFormat) (log : Log) :
    readFrom s format log = readFrom t format log := by
  have hfile := Reading.agree_file h (Reading.relaying_eq h) hpasses (ByteStream.unread t + 1)
    { stream := s, format, log } { stream := t, format, log } ⟨hR, rfl, rfl, rfl⟩
  rw [readFrom, readFrom, h.unread s t hR]
  generalize Reading.file (σ := σ) _ _ = x, Reading.file (σ := τ) _ _ = y at hfile ⊢
  cases hfile with
  | ok h => simp only [h.formula, h.format, h.log]
  | @error e _ _ _ he h =>
    subst he
    cases e <;> simp only [h.formula, h.format, h.log]

/-- Reading a source that does not fail is reading its content, in whatever pieces it comes. -/
theorem parse_eq_readFrom {source : Source} (h : source.ending = .endOfInput) (format : WeightFormat)
    (log : Log) : parse source format log = readFrom (⟨source.content, {}⟩ : PlainStream) format log := by
  have hpos : 0 < BufferedStream.usualCapacity := by decide
  have hsize : 6 ≤ BufferedStream.usualCapacity := by decide
  exact readFrom_congr (BufferedStream.matching hpos)
    (fun bytes hbytes => BufferedStream.agree_passPrefix (Nat.le_trans hbytes hsize))
    (BufferedStream.buffers_ofSourceUsual h) format log

/-- What can be seen when the content of a source is read holds of the formula that is read from the source. -/
theorem parse_of_reads {source : Source} (h : source.ending = .endOfInput) (format : WeightFormat)
    (P : Formula → Log → Prop) [∀ f log, Decidable (P f log)]
    (hreads : gives P (readFrom (⟨source.content, {}⟩ : PlainStream) format #[]) = true) :
    ∃ f log, parse source format #[] = .ok f log ∧ P f log := by
  rw [← parse_eq_readFrom h] at hreads
  exact exists_of_gives hreads

end Formula
end WeightedCnf

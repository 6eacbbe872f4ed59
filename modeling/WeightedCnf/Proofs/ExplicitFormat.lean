import WeightedCnf.Proofs.FormatDetection
import WeightedCnf.Proofs.KeptLines
import WeightedCnf.Proofs.ParsedFormulas

/-! Finding out about the format of a text and being told it come to the same. The two runs are compared step by step:
until the format is found they agree in everything else, and from then on the run that found it has noted so once, in
its log and in the body of its formula. -/
namespace WeightedCnf

/-- The first list has one more element, this one. -/
def Inserted {α : Type} (x : α) (xs ys : List α) : Prop :=
  ∃ before after, xs = before ++ x :: after ∧ ys = before ++ after

private theorem Inserted.concat {α : Type} {x : α} {xs ys : List α} (h : Inserted x xs ys) (y : α) :
    Inserted x (xs ++ [y]) (ys ++ [y]) := by
  obtain ⟨before, after, rfl, rfl⟩ := h
  exact ⟨before, after ++ [y], by rw [List.append_assoc, List.cons_append], by rw [List.append_assoc]⟩

private theorem inserted_concat {α : Type} (x : α) (xs : List α) : Inserted x (xs ++ [x]) xs :=
  ⟨xs, [], rfl, (List.append_nil xs).symm⟩

namespace Formula
variable {f g k : Formula} {line : Line}

/-- The first formula has one more line in its body, this one. -/
structure Notes (line : Line) (f g : Formula) : Prop where
  same : f = { g with body := f.body }
  body : Inserted line f.body.toList g.body.toList

private theorem Notes.map {change : Formula → Formula}
    (hbody : ∀ k body, change { k with body } = { change k with body }) (h : f.Notes line g) :
    (change f).Notes line (change g) := by
  have hsame := hbody g f.body
  rw [← h.same] at hsame
  have hkept := congrArg Formula.body (hbody g g.body)
  refine ⟨?_, ?_⟩
  · rw [hsame]
  · rw [hsame]
    exact hkept ▸ h.body

private theorem Notes.addLine (h : f.Notes line g) (more : Line) : (f.addLine more).Notes line (g.addLine more) := by
  refine ⟨?_, ?_⟩
  · conv => lhs; rw [h.same]
    rfl
  · rw [Formula.addLine, Formula.addLine, Array.toList_push, Array.toList_push]
    exact h.body.concat more

private theorem notes_addLine (f : Formula) (line : Line) : (f.addLine line).Notes line f := by
  refine ⟨rfl, ?_⟩
  rw [addLine, Array.toList_push]
  exact inserted_concat line f.body.toList

private theorem completeWeights_body (f : Formula) (body : Array Line) (v : Variable) :
    completeWeights { f with body } v = (fun g => { g with body }) <$> f.completeWeights v := by
  unfold completeWeights
  dsimp only
  cases f.weights[v.positive]? with
  | none => rfl
  | some w =>
    dsimp only
    cases w.complement <;> rfl

private theorem completeAllWeights_body (f : Formula) (body : Array Line) :
    completeAllWeights { f with body } = (fun g => { g with body }) <$> f.completeAllWeights := by
  unfold completeAllWeights
  cases Variable.first f.variableCount with
  | error e => rfl
  | ok vs =>
    change vs.foldlM completeWeights { f with body } = _ <$> vs.foldlM completeWeights f
    induction vs generalizing f with
    | nil => rfl
    | cons v vs ih =>
      rw [List.foldlM_cons, List.foldlM_cons, completeWeights_body]
      cases f.completeWeights v with
      | error e => rfl
      | ok g => exact ih g

private theorem Notes.completeAllWeights (h : f.Notes line g) (hk : f.completeAllWeights = .ok k) :
    ∃ k', g.completeAllWeights = .ok k' ∧ k.Notes line k' := by
  have hcomplete := completeAllWeights_body g f.body
  rw [← h.same, hk] at hcomplete
  cases hg : g.completeAllWeights with
  | error e =>
    rw [hg] at hcomplete
    cases hcomplete
  | ok k' =>
    rw [hg] at hcomplete
    cases hcomplete
    have hkept : k'.body = g.body := Reading.body_completeAllWeights hg
    exact ⟨k', rfl, rfl, hkept ▸ h.body⟩

end Formula

namespace WeightFormat

def note (format : WeightFormat) : Line := .comment ("detected weight format: " ++ format.name).toList

private theorem Leads.cases {a b : WeightFormat} (h : a.Leads b) (hne : a ≠ b) : a = .detect ∨ a = .cachetOrMc20 := by
  rcases Relation.ReflTransGen.cases_head h with rfl | ⟨c, hc, -⟩
  · exact absurd rfl hne
  · cases hc with
    | weightLine | weightList => exact .inl rfl
    | negativeLiteral | missingWeight => exact .inr rfl

private theorem Leads.eq_cachetOrMc20 {a b : WeightFormat} (ha : cachetOrMc20.Leads a) (hne : a ≠ b) (h : a.Leads b) :
    a = .cachetOrMc20 := by
  rcases h.cases hne with rfl | rfl
  · rcases Relation.ReflTransGen.cases_tail ha with h | ⟨c, -, hc⟩
    · cases h
    · cases hc
  · rfl

/-- Nothing follows the format, so it is one that a text can turn out to have. -/
def IsFinal (a : WeightFormat) : Prop := ∀ b, ¬ a.Next b

private theorem IsFinal.of_cachetOrMc20 {a : WeightFormat} (ha : a.IsFinal) (h : cachetOrMc20.Leads a) :
    a = .cachet ∨ a = .mc20 := by
  rcases Relation.ReflTransGen.cases_head h with rfl | ⟨b, hb, h⟩
  · exact absurd .missingWeight (ha .cachet)
  · cases hb with
    | negativeLiteral => exact .inr (Leads.eq h nofun)
    | missingWeight => exact .inl (Leads.eq h nofun)

private theorem detect_leads (a : WeightFormat) : detect.Leads a := by
  cases a with
  | detect => exact .refl
  | cachetOrMc20 => exact .single .weightLine
  | minic2d => exact .single .weightList
  | cachet => exact .head .weightLine (.single .missingWeight)
  | mc20 => exact .head .weightLine (.single .negativeLiteral)

end WeightFormat

/-- The first reader finds out about the format that the second one was told. -/
inductive Follows {σ : Type} (F : WeightFormat) : Reader σ → Reader σ → Prop
  | undecided {stream format formula log} (h : format ≠ F) :
    Follows F ⟨stream, format, formula, log⟩ ⟨stream, F, formula, log⟩
  | decided {stream formula formula' log log'} (h : formula.Notes F.note formula')
    (hlog : Inserted (.formatDetected F) log.toList log'.toList) :
    Follows F ⟨stream, F, formula, log⟩ ⟨stream, F, formula', log'⟩

section Follows
variable {σ : Type} {F : WeightFormat} {r r' : Reader σ}

private theorem Follows.stream (h : Follows F r r') : r'.stream = r.stream := by
  cases h <;> rfl

private theorem Follows.variableCount (h : Follows F r r') : r'.formula.variableCount = r.formula.variableCount := by
  cases h with
  | undecided => rfl
  | decided h => exact (congrArg Formula.variableCount h.same).symm

end Follows

namespace Reading
open ByteStream (skipBlanks skipLine restOfLine token integer)
variable {σ α β : Type} {F s t u : WeightFormat} {r r' r₁ : Reader σ} {x y : Reading σ α} {a : α}

/-- From readers in a format that `s` leads to, this part of reading succeeds alike, if the format that it leaves leads
to `F`. It leaves a format that `t` leads to. -/
structure Followed (F s t : WeightFormat) (x : Reading σ α) : Prop where
  leads : ∀ r, LeadsFrom r x
  reaches : ∀ {r a r₁}, s.Leads r.format → x r = .ok a r₁ → t.Leads r₁.format
  follows : ∀ {r r' a r₁}, s.Leads r.format → Follows F r r' → x r = .ok a r₁ → r₁.format.Leads F →
    ∃ r₁', x r' = .ok a r₁' ∧ Follows F r₁ r₁'

namespace Followed

private theorem of_follows (hleads : ∀ r, LeadsFrom r x) (h : ∀ {r r' a r₁}, s.Leads r.format → Follows F r r' →
    x r = .ok a r₁ → r₁.format.Leads F → ∃ r₁', x r' = .ok a r₁' ∧ Follows F r₁ r₁') : Followed F s s x :=
  ⟨hleads, fun hs hok => hs.trans ((hleads _).of_ok hok), h⟩

private theorem pure (a : α) : Followed F s s (Pure.pure a : Reading σ α) :=
  of_follows (fun _ => leads_pure a) fun _ hr hok _ => by
    cases hok
    exact ⟨_, rfl, hr⟩

private theorem throw (e : Stop FormulaError) : Followed F s t (throw e : Reading σ α) :=
  ⟨fun _ => leads_throw e, fun _ hok => (nomatch hok), fun _ _ hok => (nomatch hok)⟩

private theorem bind {f : α → Reading σ β} (hx : Followed F s t x) (hf : ∀ a, Followed F t u (f a)) :
    Followed F s u (x >>= f) where
  leads r := (hx.leads r).bind fun a r₁ => (hf a).leads r₁
  reaches hs hok := by
    obtain ⟨a, r₂, ha, hb⟩ := run_bind_eq_ok.mp hok
    exact (hf a).reaches (hx.reaches hs ha) hb
  follows hs hr hok hF := by
    obtain ⟨a, r₂, ha, hb⟩ := run_bind_eq_ok.mp hok
    -- formats only move on, so the one between both parts leads to `F` as well
    have hF₂ := (((hf a).leads r₂).of_ok hb).trans hF
    obtain ⟨r₂', ha', hr₂⟩ := hx.follows hs hr ha hF₂
    obtain ⟨r₁', hb', hr₁⟩ := (hf a).follows (hx.reaches hs ha) hr₂ hb hF
    exact ⟨r₁', run_bind_eq_ok.mpr ⟨a, r₂', ha', hb'⟩, hr₁⟩

private theorem bind_get {f : Reader σ → Reading σ α} (h : ∀ r, Followed F s t (f r))
    (hsame : ∀ r r', Follows F r r' → f r' = f r) : Followed F s t (get >>= f) where
  leads r := leads_bind_get ((h r).leads r)
  reaches hs hok := (h _).reaches hs hok
  follows {r r' a r₁} hs hr hok hF := by
    obtain ⟨r₁', hok', hr₁⟩ := (h r).follows hs hr hok hF
    rw [← hsame r r' hr] at hok'
    exact ⟨r₁', hok', hr₁⟩

private theorem ite {c : Prop} [Decidable c] (hx : c → Followed F s t x) (hy : ¬ c → Followed F s t y) :
    Followed F s t (if c then x else y) := by
  by_cases hc : c
  · rw [if_pos hc]
    exact hx hc
  · rw [if_neg hc]
    exact hy hc

private theorem weaken (h : Followed F s t x) (hs : u.Leads t) : Followed F s u x :=
  ⟨h.leads, fun hr hok => hs.trans (h.reaches hr hok), h.follows⟩

private theorem within (h : Followed F s t x) (context : FormulaError → FormulaError) :
    Followed F s t (within context x) where
  leads r := (h.leads r).within context
  reaches hs hok := h.reaches hs (within_eq_ok.mp hok)
  follows hs hr hok hF := by
    obtain ⟨r₁', hok', hr₁⟩ := h.follows hs hr (within_eq_ok.mp hok) hF
    exact ⟨r₁', within_eq_ok.mpr hok', hr₁⟩

end Followed

private theorem followed_onStream (x : EStateM StreamError σ α) : Followed F s s (onStream x) :=
  .of_follows (fun _ => leads_onStream x) fun _ hr hok _ => by
    obtain ⟨stream, hx, rfl⟩ := onStream_eq_ok.mp hok
    cases hr with
    | undecided h => exact ⟨_, onStream_eq_ok.mpr ⟨stream, hx, rfl⟩, .undecided h⟩
    | decided h hlog => exact ⟨_, onStream_eq_ok.mpr ⟨stream, hx, rfl⟩, .decided h hlog⟩

private theorem followed_onFormula_of_notes {change : Formula → Formula}
    (hchange : ∀ {f g : Formula}, f.Notes F.note g → (change f).Notes F.note (change g)) :
    Followed F s s (onFormula change : Reading σ Unit) :=
  .of_follows (fun _ => leads_onFormula change) fun _ hr hok _ => by
    cases hok
    cases hr with
    | undecided h => exact ⟨_, rfl, .undecided h⟩
    | decided h hlog => exact ⟨_, rfl, .decided (hchange h) hlog⟩

private theorem followed_onFormula {change : Formula → Formula}
    (hbody : ∀ k body, change { k with body } = { change k with body }) :
    Followed F s s (onFormula change : Reading σ Unit) :=
  followed_onFormula_of_notes fun h => h.map hbody

private theorem followed_addLine (line : Line) : Followed F s s (onFormula (·.addLine line) : Reading σ Unit) :=
  followed_onFormula_of_notes fun h => h.addLine line

private theorem followed_report (event : Event) : Followed F s s (report event : Reading σ Unit) :=
  .of_follows (fun _ => leads_report event) fun _ hr hok _ => by
    cases hok
    cases hr with
    | undecided h => exact ⟨_, rfl, .undecided h⟩
    | decided h hlog =>
      refine ⟨_, rfl, .decided h ?_⟩
      rw [Array.toList_push, Array.toList_push]
      exact hlog.concat event

private theorem followed_require (c : Bool) (e : FormulaError) : Followed F s s (require c e : Reading σ Unit) :=
  .ite (fun _ => .pure ()) fun _ => .throw _

private theorem followed_assume (x : Except Fault α) : Followed F s s (assume x : Reading σ α) := by
  cases x with
  | ok a => exact .pure a
  | error e => exact .throw _

private theorem followed_recordWeight (l : Literal) (text : List Char) :
    Followed F s s (recordWeight l text : Reading σ Unit) := by
  unfold recordWeight
  cases Weight.read text with
  | ok w => exact followed_onFormula fun _ _ => rfl
  | error e => exact (followed_report _).bind fun _ => followed_onFormula fun _ _ => rfl

theorem settle_eq_ok {format : WeightFormat} {u : Unit} : settle format r = .ok u r₁ ↔
    ⟨r.stream, format, r.formula.addLine format.note, r.log.push (.formatDetected format)⟩ = r₁ := by
  change EStateM.Result.ok () _ = _ ↔ _
  rw [EStateM.Result.ok.injEq]
  exact and_iff_right rfl

private theorem follows_settle {stream : σ} {formula : Formula} {log : Log} :
    Follows F ⟨stream, F, formula.addLine F.note, log.push (.formatDetected F)⟩ ⟨stream, F, formula, log⟩ :=
  .decided (Formula.notes_addLine formula F.note) (by rw [Array.toList_push]; exact inserted_concat _ _)

section Final
variable (hfinal : F.IsFinal)
include hfinal

private theorem followed_meetWeightLine : Followed F .detect .cachetOrMc20 (meetWeightLine : Reading σ Unit) where
  leads := leads_meetWeightLine
  reaches {r a r₁} _ hok := by
    obtain ⟨stream, format, formula, log⟩ := r
    cases format with
    | minic2d => cases hok
    | detect | cachetOrMc20 =>
      cases hok
      exact .refl
    | cachet =>
      cases hok
      exact .single .missingWeight
    | mc20 =>
      cases hok
      exact .single .negativeLiteral
  follows {r r' a r₁} _ hr hok hF := by
    cases hr with
    | @undecided stream format formula log h =>
      -- the line alone does not tell the format: the first run is still undecided behind it
      have hstart : format.Leads F := ((leads_meetWeightLine _).of_ok hok).trans hF
      have hmet : r₁ = ⟨stream, .cachetOrMc20, formula, log⟩ := by
        rcases hstart.cases h with rfl | rfl <;> cases hok <;> rfl
      subst hmet
      rcases hfinal.of_cachetOrMc20 hF with rfl | rfl
      · exact ⟨_, rfl, .undecided nofun⟩
      · exact ⟨_, rfl, .undecided nofun⟩
    | decided h hlog =>
      cases F with
      | minic2d => cases hok
      | detect => exact absurd .weightLine (hfinal .cachetOrMc20)
      | _ =>
        cases hok
        exact ⟨_, rfl, .decided h hlog⟩

private theorem followed_meetLiteral (l : Literal) :
    Followed F .cachetOrMc20 .cachetOrMc20 (meetLiteral l : Reading σ Unit) := by
  refine .of_follows (leads_meetLiteral l) fun {r r' a r₁} hs hr hok hF => ?_
  have hstart := ((leads_meetLiteral l r).of_ok hok).trans hF
  obtain ⟨v, positive⟩ := l
  cases positive with
  | true =>
    cases hok
    exact ⟨r', rfl, hr⟩
  | false =>
    cases hr with
    | @undecided stream format formula log h =>
      cases WeightFormat.Leads.eq_cachetOrMc20 hs h hstart
      cases settle_eq_ok.mp hok
      cases WeightFormat.Leads.eq (a := .mc20) hF nofun
      exact ⟨_, rfl, follows_settle⟩
    | decided h hlog =>
      cases F with
      | cachet => cases hok
      | cachetOrMc20 => exact absurd .missingWeight (hfinal .cachet)
      | _ =>
        cases hok
        exact ⟨_, rfl, .decided h hlog⟩

private theorem followed_meetNoWeight : Followed F .cachetOrMc20 .cachetOrMc20 (meetNoWeight : Reading σ Unit) := by
  refine .of_follows leads_meetNoWeight fun {r r' a r₁} hs hr hok hF => ?_
  have hstart := ((leads_meetNoWeight r).of_ok hok).trans hF
  cases hr with
  | @undecided stream format formula log h =>
    cases WeightFormat.Leads.eq_cachetOrMc20 hs h hstart
    cases settle_eq_ok.mp hok
    cases WeightFormat.Leads.eq (a := .cachet) hF nofun
    exact ⟨_, rfl, follows_settle⟩
  | decided h hlog =>
    cases F with
    | cachet =>
      cases hok
      exact ⟨_, rfl, .decided h hlog⟩
    | cachetOrMc20 => exact absurd .missingWeight (hfinal .cachet)
    | _ => cases hok

end Final

section Lines
variable [ByteStream σ]

private theorem followed_nextWord (words : List (List Char)) :
    Followed F s s (nextWord words : Reading σ (List Char × List (List Char))) := by
  cases words with
  | nil => exact (followed_onStream _).bind fun _ => .pure _
  | cons word words => exact .pure _

private theorem hasLiteral_congr {f g : Formula} (h : g.variableCount = f.variableCount) (n : Int) :
    g.hasLiteral n = f.hasLiteral n := by
  rw [Formula.hasLiteral, Formula.hasLiteral, h]

private theorem followed_literal : Followed F s s (literal : Reading σ Literal) := by
  refine (followed_onStream _).bind fun n => .bind_get (fun r => ?_) fun r r' h => ?_
  · exact (followed_require _ _).bind fun _ => followed_assume _
  · dsimp only
    rw [hasLiteral_congr h.variableCount, h.variableCount]

private theorem followed_header : Followed F s s (header : Reading σ Unit) :=
  (followed_onStream _).bind fun _ => (followed_require _ _).bind fun _ => (followed_onStream _).bind fun _ =>
    (followed_onStream _).bind fun _ => (followed_require _ _).bind fun _ => (followed_require _ _).bind fun _ =>
      (followed_report _).bind fun _ => followed_onFormula fun _ _ => rfl

private theorem followed_weightLine (hfinal : F.IsFinal) :
    Followed F .detect .detect (weightLine : Reading σ Unit) := by
  have htail (l : Literal) (weight : List Char) : Followed F .cachetOrMc20 .cachetOrMc20
      (if weight = "-1".toList then meetNoWeight >>= fun _ =>
          onFormula fun f => (f.setWeight l .one).setWeight (-l) .one
        else recordWeight l weight : Reading σ Unit) :=
    .ite (fun _ => (followed_meetNoWeight hfinal).bind fun _ => followed_onFormula fun _ _ => rfl)
      fun _ => followed_recordWeight l weight
  have hline : Followed F .detect .cachetOrMc20 (weightLine : Reading σ Unit) :=
    (followed_onStream _).bind fun _ => (followed_require _ _).bind fun _ =>
      (followed_meetWeightLine hfinal).bind fun _ => followed_literal.bind fun l =>
        (followed_meetLiteral hfinal l).bind fun _ => (followed_onStream _).bind fun weight => htail l weight
  exact hline.weaken (.single .weightLine)

private theorem followed_supportList (fuel : Nat) (words : List (List Char)) :
    Followed F s s (supportList fuel words : Reading σ Unit) := by
  induction fuel generalizing words with
  | zero => exact .pure _
  | succ fuel ih =>
    refine (followed_nextWord words).bind fun (word, words) => ?_
    dsimp only
    cases ByteStream.integer? word with
    | none => exact .throw _
    | some n =>
      refine .ite (fun _ => .pure _) fun _ => .bind_get (fun r => ?_) fun r r' h => ?_
      · exact (followed_require _ _).bind fun _ => (followed_assume _).bind fun v =>
          (followed_onFormula fun _ _ => rfl).bind fun _ => ih words
      · rw [hasLiteral_congr h.variableCount, h.variableCount]

private theorem followed_weightList (count number : Nat) (words : List (List Char)) :
    Followed F s s (weightList count number words : Reading σ Unit) := by
  induction count generalizing number words with
  | zero => exact .pure _
  | succ count ih =>
    exact (followed_assume _).bind fun v => ((followed_nextWord words).within _).bind fun (weight, words) =>
      (followed_recordWeight _ weight).bind fun _ => ((followed_nextWord words).within _).bind
        fun (weight, words) => (followed_recordWeight _ weight).bind fun _ => ih (number + 1) words

private theorem followed_otherLine : Followed F s s (otherLine : Reading σ Unit) :=
  (followed_onStream _).bind fun _ => followed_addLine _

private def weightsComment (words : List (List Char)) (line : Line) : Reading σ Unit := do
  let r ← get
  if r.format == .detect || r.format == .minic2d then
    if r.format = .detect then settle .minic2d
    weightList r.formula.variableCount 1 words
  else onFormula (·.addLine line)

private theorem leads_weightsComment (words : List (List Char)) (line : Line) (r : Reader σ) :
    LeadsFrom r (weightsComment words line) := by
  refine leads_bind_get (.ite (fun _ => .ite (fun hdetect => ?_) fun _ => leads_weightList _ _ _ _) fun _ =>
    leads_onFormula _)
  refine (leads_settle ?_).bind fun _ => leads_weightList _ _ _
  rw [hdetect]
  exact .weightList

private theorem followed_weightsComment (hfinal : F.IsFinal) (words : List (List Char)) (line : Line) :
    Followed F .detect .detect (weightsComment words line : Reading σ Unit) := by
  refine .of_follows (leads_weightsComment words line) fun {r r' a r₁} hs hr hok hF => ?_
  have hstart : r.format.Leads F := ((leads_weightsComment words line r).of_ok hok).trans hF
  cases hr with
  | @undecided stream format formula log h =>
    rcases hstart.cases h with rfl | rfl
    · obtain ⟨_, r₂, hsettle, hlist⟩ := run_bind_eq_ok.mp
        (show (settle .minic2d >>= fun _ => weightList formula.variableCount 1 words) _ = .ok a r₁ from hok)
      cases settle_eq_ok.mp hsettle
      cases WeightFormat.Leads.eq (a := .minic2d) (((leads_weightList _ _ _ _).of_ok hlist).trans hF) nofun
      exact (followed_weightList _ _ _).follows (WeightFormat.detect_leads _) follows_settle hlist hF
    · cases hok
      rcases hfinal.of_cachetOrMc20 hF with rfl | rfl
      · exact ⟨_, rfl, .undecided h⟩
      · exact ⟨_, rfl, .undecided h⟩
  | @decided stream formula formula' log log' h hlog =>
    cases F with
    | detect => exact absurd .weightLine (hfinal .cachetOrMc20)
    | minic2d =>
      have hlist : weightList formula.variableCount 1 words ⟨stream, .minic2d, formula, log⟩ = .ok a r₁ := hok
      have hcount : formula'.variableCount = formula.variableCount := (congrArg Formula.variableCount h.same).symm
      change ∃ r₁', weightList formula'.variableCount 1 words ⟨stream, .minic2d, formula', log'⟩ = .ok a r₁' ∧ _
      rw [hcount]
      exact (followed_weightList _ _ _).follows (WeightFormat.detect_leads _) (.decided h hlog) hlist hF
    | _ =>
      cases hok
      exact ⟨_, rfl, .decided (h.addLine line) hlog⟩

private theorem followed_comment (hfinal : F.IsFinal) : Followed F .detect .detect (comment : Reading σ Unit) := by
  refine (followed_onStream _).bind fun _ => (followed_onStream _).bind fun rest => ?_
  dsimp only
  cases hsupport : (rest.head?.any Text.isAsciiBlank && (Text.words rest).head? == some "ind".toList) with
  | true =>
    refine .bind_get (fun r => followed_supportList _ _) fun r r' h => ?_
    rw [if_pos rfl, if_pos rfl, h.stream]
  | false =>
    cases hweights : (rest.head?.any Text.isAsciiBlank && (Text.words rest).head? == some "weights".toList) with
    | true =>
      have hcomment := followed_weightsComment (σ := σ) hfinal (Text.words rest).tail (.raw ('c' :: rest))
      exact hcomment
    | false => exact .bind_get (fun r => followed_addLine _) fun r r' h => rfl

private theorem followed_item (hfinal : F.IsFinal) (first : UInt8) :
    Followed F .detect .detect (item first : Reading σ Unit) :=
  .ite (fun _ => followed_header) fun _ => .ite (fun _ => followed_weightLine hfinal) fun _ =>
    .ite (fun _ => followed_comment hfinal) fun _ => followed_otherLine

end Lines

theorem complete_eq_ok {u : Unit} : complete r = .ok u r₁ ↔
    ∃ f, r.formula.completeAllWeights = .ok f ∧ { r with formula := f } = r₁ := by
  have hcomplete : complete r = (assume r.formula.completeAllWeights >>= fun f => onFormula fun _ => f) r := rfl
  rw [hcomplete, run_bind_eq_ok]
  cases r.formula.completeAllWeights with
  | error e => exact ⟨fun ⟨_, _, h, _⟩ => (nomatch h), fun ⟨_, h, _⟩ => (nomatch h)⟩
  | ok f =>
    constructor
    · rintro ⟨f', r₂, hf, hr⟩
      cases hf
      cases hr
      exact ⟨f, rfl, rfl⟩
    · rintro ⟨f', hf, rfl⟩
      cases hf
      exact ⟨f, r, rfl, rfl⟩

private theorem follows_complete {formula formula' : Formula} {stream : σ} {log log' : Log} {u : Unit}
    (h : formula.Notes F.note formula') (hlog : Inserted (.formatDetected F) log.toList log'.toList)
    (hok : complete ⟨stream, F, formula, log⟩ = .ok u r₁) :
    ∃ r₁', complete ⟨stream, F, formula', log'⟩ = .ok () r₁' ∧ Follows F r₁ r₁' := by
  obtain ⟨f, hf, rfl⟩ := complete_eq_ok.mp hok
  obtain ⟨f', hf', hnotes⟩ := h.completeAllWeights hf
  exact ⟨_, complete_eq_ok.mpr ⟨f', hf', rfl⟩, .decided hnotes hlog⟩

/-- This last part of reading succeeds alike, if the format that it leaves is `F`. -/
structure FollowedToEnd (F : WeightFormat) (x : Reading σ Unit) : Prop where
  leads : ∀ r, LeadsFrom r x
  follows : ∀ {r r' r₁}, Follows F r r' → x r = .ok () r₁ → r₁.format = F → ∃ r₁', x r' = .ok () r₁' ∧ Follows F r₁ r₁'

private theorem Followed.andThen {f : α → Reading σ Unit} (hx : Followed F .detect t x)
    (hf : ∀ a, FollowedToEnd F (f a)) :
    FollowedToEnd F (x >>= f) where
  leads r := (hx.leads r).bind fun a r₁ => (hf a).leads r₁
  follows {r r' r₁} h hok hF := by
    obtain ⟨a, r₂, ha, hb⟩ := run_bind_eq_ok.mp hok
    have hF₂ : r₂.format.Leads F := hF ▸ ((hf a).leads r₂).of_ok hb
    obtain ⟨r₂', ha', hr₂⟩ := hx.follows (WeightFormat.detect_leads _) h ha hF₂
    obtain ⟨r₁', hb', hr₁⟩ := (hf a).follows hr₂ hb hF
    exact ⟨r₁', run_bind_eq_ok.mpr ⟨a, r₂', ha', hb'⟩, hr₁⟩

private theorem FollowedToEnd.bind_get {f : Reader σ → Reading σ Unit} (h : ∀ r, FollowedToEnd F (f r))
    (hsame : ∀ r r', Follows F r r' → f r' = f r) : FollowedToEnd F (get >>= f) where
  leads r := leads_bind_get ((h r).leads r)
  follows {r r' r₁} hr hok hF := by
    obtain ⟨r₁', hok', hr₁⟩ := (h r).follows hr hok hF
    rw [← hsame r r' hr] at hok'
    exact ⟨r₁', hok', hr₁⟩

/-- Where a text turned out to have the format at its end, both runs have done the same. -/
private theorem followed_finish (hfinal : F.IsFinal) : FollowedToEnd F (finish : Reading σ Unit) where
  leads := leads_finish
  follows {r r' r₁} hr hok hF := by
    have hstart : r.format.Leads F := hF ▸ (leads_finish r).of_ok hok
    cases hr with
    | @undecided stream format formula log h =>
      rcases hstart.cases h with rfl | rfl
      · cases hok
        exact absurd hF h
      · obtain ⟨_, r₂, hsettle, hcomplete⟩ := run_bind_eq_ok.mp
          (show (settle .cachet >>= fun _ => complete) _ = .ok () r₁ from hok)
        cases settle_eq_ok.mp hsettle
        obtain ⟨f, hf, rfl⟩ := complete_eq_ok.mp hcomplete
        cases hF
        exact follows_complete (Formula.notes_addLine _ _) (by rw [Array.toList_push]; exact inserted_concat _ _)
          hcomplete
    | @decided stream formula formula' log log' h hlog =>
      cases F with
      | cachetOrMc20 => exact absurd .missingWeight (hfinal .cachet)
      | cachet => exact follows_complete h hlog hok
      | _ =>
        cases hok
        exact ⟨_, rfl, .decided h hlog⟩

/-- Both runs read a file alike, item by item. -/
private theorem followed_file [ByteStream σ] (hfinal : F.IsFinal) (fuel : Nat) :
    FollowedToEnd F (file fuel : Reading σ Unit) := by
  induction fuel with
  | zero => exact followed_finish hfinal
  | succ fuel ih =>
    refine (followed_onStream _).andThen fun _ => .bind_get (fun r => ?_) fun r r' h => ?_
    · refine (followed_onStream _).andThen fun next => ?_
      cases next with
      | none => exact followed_finish hfinal
      | some first =>
        exact ((followed_item hfinal first).within _).andThen fun _ => (followed_onStream _).andThen fun _ => ih
    · rw [h.stream]

end Reading

namespace Formula
variable {σ : Type} [ByteStream σ] {stream : σ} {format : WeightFormat} {f : Formula} {log log' : Log}

/-- Where a format was found, being told this format comes to the same: the same formula is read without a complaint,
and only the comment on the format is missing in its body. -/
theorem parse_detected {source : Source} (hparse : parse source .detect #[] = .ok f log)
    (haccepted : ∀ e, .formulaNotRead e ∉ log.toList)
    (hformat : f.format = .cachet ∨ f.format = .mc20 ∨ f.format = .minic2d) :
    ∃ g log', parse source f.format #[] = .ok g log' ∧ (∀ e, .formulaNotRead e ∉ log'.toList) ∧
      g.format = f.format ∧ g.variableCount = f.variableCount ∧ g.clauseCount = f.clauseCount ∧
      g.support = f.support ∧ g.weights = f.weights ∧
      ∃ before after, f.body.toList =
          before ++ .comment ("detected weight format: " ++ f.format.name).toList :: after ∧
        g.body.toList = before ++ after := by
  obtain ⟨r, hfile, rfl, rfl⟩ := file_of_readFrom hparse haccepted
  have hfinal : r.format.IsFinal := by
    dsimp only at hformat
    rcases hformat with h | h | h <;> rw [h] <;> exact nofun
  have hne : WeightFormat.detect ≠ r.format := by
    dsimp only at hformat
    rcases hformat with h | h | h <;> rw [h] <;> exact nofun
  obtain ⟨r', hfile', hfollows⟩ := (Reading.followed_file hfinal _).follows (.undecided hne) hfile rfl
  obtain ⟨stream, format, formula, log⟩ := r
  cases hfollows with
  | undecided h => exact absurd rfl h
  | @decided _ _ formula' _ log' h hlog =>
    have hsame {α : Type} (q : Formula → α) : q formula = q { formula' with body := formula.body } :=
      congrArg q h.same
    refine ⟨{ formula' with format }, log', ?_, fun e he => haccepted e ?_, rfl, (hsame Formula.variableCount).symm,
      (hsame Formula.clauseCount).symm, (hsame Formula.support).symm, (hsame Formula.weights).symm, h.body⟩
    · rw [parse, readFrom, hfile']
    · obtain ⟨before, after, hbefore, hafter⟩ := hlog
      rw [hafter] at he
      rw [hbefore]
      exact ((List.sublist_cons_self _ _).append_left before).subset he

/-- A text whose weight lines follow one convention until one of them has a negative literal. -/
def mixedSource : Source :=
  { content := Text.Utf8.encode "p cnf 2 1\nw 1 1/3\nc kept\nw -2 1/2\n1 2 0\n".toList }

theorem parse_detected_mixed : ∃ f log, parse mixedSource .detect #[] = .ok f log ∧ f.format = .mc20 ∧
    f.body.toList = [.raw "c kept".toList, .comment "detected weight format: mc20".toList, .raw "1 2 0".toList] ∧
    ∃ g log', parse mixedSource .mc20 #[] = .ok g log' ∧ g.weights = f.weights ∧
      ∃ before after, f.body.toList = before ++ .comment "detected weight format: mc20".toList :: after ∧
        g.body.toList = before ++ after := by
  obtain ⟨f, log, hparse, hformat, hlog, hbody⟩ := parse_of_reads (rfl : mixedSource.ending = .endOfInput) .detect
    (fun f log => f.format = .mc20 ∧ log = #[.headerRead 2 1, .formatDetected .mc20] ∧
      f.body.toList = [.raw "c kept".toList, .comment "detected weight format: mc20".toList, .raw "1 2 0".toList])
    (by decide +kernel)
  obtain ⟨g, log', hg, -, -, -, -, -, hweights, hbodies⟩ :=
    parse_detected hparse (by simp [hlog]) (.inr (.inl hformat))
  rw [hformat] at hg hbodies
  exact ⟨f, log, hparse, hformat, hbody, g, log', hg, hweights, hbodies⟩

end Formula
end WeightedCnf

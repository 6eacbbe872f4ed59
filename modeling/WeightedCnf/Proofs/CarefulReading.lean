import WeightedCnf.Formula.Reading
import WeightedCnf.Proofs.Growth
import WeightedCnf.Proofs.WeightTokens

/-! Reading never loses sight of the headers: what it knows of a formula is about variables that some header
announced. A precondition is broken only when a header announces a variable that there cannot be. -/
namespace WeightedCnf

/-- A header that was read announces a variable of this number. -/
def Log.Announces (log : Log) (number : Nat) : Prop :=
  ∃ variableCount clauseCount, .headerRead variableCount clauseCount ∈ log.toList ∧ number ≤ variableCount

private theorem Log.Announces.mono {log log' : Log} {number : Nat} (h : log.Announces number)
    (hle : log.toList ⊆ log'.toList) : log'.Announces number := by
  obtain ⟨variableCount, clauseCount, hmem, hnumber⟩ := h
  exact ⟨variableCount, clauseCount, hle hmem, hnumber⟩

/-- A fault for which headers are to blame: a variable that one announces does not exist. -/
def Log.Explains (log : Log) (cause : Fault) : Prop :=
  ∃ n : Int, cause = .noSuchVariable n ∧ Variable.limit < n.natAbs ∧ log.Announces n.natAbs

namespace Variable

private theorem ofNumber?_succ (n : Nat) :
    ofNumber? (n + 1) = if h : n < limit then some ⟨n, h⟩ else none := rfl

theorem number_of_ofNumber? {n : Nat} {v : Variable} (h : ofNumber? n = some v) : v.number = n := by
  cases n with
  | zero => cases h
  | succ n =>
    rw [ofNumber?_succ, Option.dite_none_right_eq_some] at h
    obtain ⟨_, hv⟩ := h
    cases hv
    rfl

private theorem limit_lt_of_first {count : Nat} {cause : Fault} (h : first count = .error cause) :
    limit < count ∧ cause = .noSuchVariable (limit + 1 : Nat) := by
  unfold first at h
  split at h
  · cases h
  · rename_i hlt
    cases h
    exact ⟨Nat.not_le.mp hlt, rfl⟩

private theorem limit_lt_of_ofNumber? {n : Nat} (h : ofNumber? n = none) (hn : n ≠ 0) : limit < n := by
  obtain ⟨n, rfl⟩ := Nat.exists_eq_add_one_of_ne_zero hn
  rw [ofNumber?_succ] at h
  split at h
  · cases h
  · omega

end Variable

namespace Formula
variable {f g : Formula} {log log' : Log}

/-- What is known of a formula accords with what was reported: its variables are announced, and so are those of
its support and its weights. The weights of variables have no signs. -/
structure Accords (f : Formula) (log : Log) : Prop where
  variableCount_lt : f.variableCount < 2 ^ 63
  clauseCount_lt : f.clauseCount < 2 ^ 63
  announced : ∀ n, n ≤ f.variableCount → n = 0 ∨ log.Announces n
  support : ∀ v ∈ f.support.toList, log.Announces v.number
  weights : ∀ (l : Literal) w, f.weights[l]? = some w → log.Announces l.var.number
  isUnsigned : ∀ (v : Variable) w, f.weights[v.positive]? = some w → w.IsUnsigned

private theorem Accords.mono (h : f.Accords log) (hle : log.toList ⊆ log'.toList) : f.Accords log' where
  variableCount_lt := h.variableCount_lt
  clauseCount_lt := h.clauseCount_lt
  announced n hn := (h.announced n hn).imp_right (·.mono hle)
  support v hv := (h.support v hv).mono hle
  weights l w hw := (h.weights l w hw).mono hle
  isUnsigned := h.isUnsigned

theorem accords_empty (log : Log) : ({} : Formula).Accords log where
  variableCount_lt := by decide
  clauseCount_lt := by decide
  announced _ hn := .inl (Nat.le_zero.mp hn)
  support _ hv := nomatch hv
  weights l w hw := by simp at hw
  isUnsigned v w hw := by simp at hw

private theorem Accords.addLine (h : f.Accords log) (line : Line) : (f.addLine line).Accords log :=
  ⟨h.variableCount_lt, h.clauseCount_lt, h.announced, h.support, h.weights, h.isUnsigned⟩

private theorem Accords.addSupport (h : f.Accords log) {v : Variable} (hv : log.Announces v.number) :
    (f.addSupport v).Accords log where
  variableCount_lt := h.variableCount_lt
  clauseCount_lt := h.clauseCount_lt
  announced := h.announced
  support u hu := by
    rcases Support.mem_insert.mp hu with hu | rfl
    · exact h.support u hu
    · exact hv
  weights := h.weights
  isUnsigned := h.isUnsigned

private theorem Accords.announces (h : f.Accords log) {n : Int} (hn : f.hasLiteral n = true) :
    n ≠ 0 ∧ log.Announces n.natAbs := by
  rw [hasLiteral, Bool.and_eq_true, bne_iff_ne, decide_eq_true_eq] at hn
  exact ⟨hn.1, (h.announced _ hn.2).resolve_left (Int.natAbs_ne_zero.mpr hn.1)⟩

theorem getElem?_weights_setWeight {l k : Literal} {w u : Weight}
    (h : (f.setWeight l w).weights[k]? = some u) : f.weights[k]? = some u ∨ l = k ∧ w = u := by
  rw [setWeight, Std.TreeMap.getElem?_insertIfNew] at h
  split at h
  · rename_i hnew
    exact .inr ⟨Std.LawfulEqOrd.eq_of_compare hnew.1, Option.some.inj h⟩
  · exact .inl h

private theorem Accords.setWeight (h : f.Accords log) {l : Literal} {w : Weight} (hl : log.Announces l.var.number)
    (hw : l.positive = true → w.IsUnsigned) : (f.setWeight l w).Accords log where
  variableCount_lt := h.variableCount_lt
  clauseCount_lt := h.clauseCount_lt
  announced := h.announced
  support := h.support
  weights k u hu := by
    rcases getElem?_weights_setWeight hu with hu | ⟨rfl, -⟩
    · exact h.weights k u hu
    · exact hl
  isUnsigned v u hu := by
    rcases getElem?_weights_setWeight hu with hu | ⟨rfl, rfl⟩
    · exact h.isUnsigned v u hu
    · exact hw rfl

private theorem Accords.exists_completeWeights (h : f.Accords log) {v : Variable} (hv : log.Announces v.number) :
    ∃ g, f.completeWeights v = .ok g ∧ g.Accords log := by
  unfold completeWeights
  split
  · rename_i w hw
    obtain ⟨w', hw'⟩ := (h.isUnsigned v w hw).exists_complement
    refine ⟨f.setWeight v.negative w', ?_, h.setWeight hv (nomatch ·)⟩
    rw [hw']
    rfl
  · exact ⟨_, rfl, (h.setWeight hv fun _ => Weight.isUnsigned_half).setWeight hv (nomatch ·)⟩

private theorem Accords.exists_foldlM_completeWeights {vs : List Variable} (h : f.Accords log)
    (hvs : ∀ v ∈ vs, log.Announces v.number) : ∃ g, vs.foldlM completeWeights f = .ok g ∧ g.Accords log := by
  induction vs generalizing f with
  | nil => exact ⟨f, rfl, h⟩
  | cons v vs ih =>
    obtain ⟨g, hg, hgaccords⟩ := h.exists_completeWeights (hvs v List.mem_cons_self)
    obtain ⟨k, hk, hkaccords⟩ := ih hgaccords fun u hu => hvs u (List.mem_cons_of_mem v hu)
    exact ⟨k, by rw [List.foldlM_cons, hg]; exact hk, hkaccords⟩

private theorem Accords.completeAllWeights (h : f.Accords log) : (∃ g, f.completeAllWeights = .ok g ∧ g.Accords log) ∨
    ∃ cause, f.completeAllWeights = .error cause ∧ log.Explains cause := by
  unfold Formula.completeAllWeights
  cases hfirst : Variable.first f.variableCount with
  | ok vs =>
    refine .inl (h.exists_foldlM_completeWeights fun v hv => ?_)
    exact (h.announced _ ((Variable.mem_first hfirst).mp hv)).resolve_left (Nat.succ_ne_zero _)
  | error cause =>
    obtain ⟨hlt, rfl⟩ := Variable.limit_lt_of_first hfirst
    have hannounced := (h.announced _ hlt).resolve_left (Nat.succ_ne_zero _)
    exact .inr ⟨_, rfl, _, rfl, Nat.lt_succ_self _, hannounced⟩

end Formula

/-- A reader that has refused nothing, and whose formula accords with what it reported. -/
structure Reader.IsSound {σ : Type} (r : Reader σ) : Prop where
  accords : r.formula.Accords r.log
  accepted : ∀ e, .formulaNotRead e ∉ r.log.toList

namespace Reading
open ByteStream (skipBlanks skipLine restOfLine token integer)
variable {σ α β : Type} {log : Log} {x : Reading σ α} {P : α → Log → Prop} {Q : β → Log → Prop}

/-- From events that include these on, all is well: the reader is sound and the result has the property, or the
text is refused, or the fault is explained. -/
def EndsWell (log : Log) (P : α → Log → Prop) : EStateM.Result (Stop FormulaError) (Reader σ) α → Prop
  | .ok a r => r.IsSound ∧ log.toList ⊆ r.log.toList ∧ P a r.log
  | .error (.error _) _ => True
  | .error (.fault cause) r => r.log.Explains cause

/-- From every sound reader with these events this part of reading ends well. -/
def Careful (log : Log) (x : Reading σ α) (P : α → Log → Prop) : Prop :=
  ∀ r, r.IsSound → log.toList ⊆ r.log.toList → EndsWell log P (x r)

private theorem EndsWell.mono {log' : Log} {result : EStateM.Result (Stop FormulaError) (Reader σ) α}
    (h : EndsWell log' P result) (hle : log.toList ⊆ log'.toList) : EndsWell log P result := by
  cases result with
  | ok a r => exact ⟨h.1, List.Subset.trans hle h.2.1, h.2.2⟩
  | error e r => cases e <;> exact h

private theorem careful_pure {a : α} (h : ∀ log', log.toList ⊆ log'.toList → P a log') :
    Careful log (pure a : Reading σ α) P :=
  fun r hr hlog => ⟨hr, hlog, h r.log hlog⟩

private theorem careful_refuse (e : FormulaError) : Careful log (refuse e : Reading σ α) P := fun _ _ _ => trivial

private theorem Careful.bind {f : α → Reading σ β} (hx : Careful log x P)
    (hf : ∀ a log', log.toList ⊆ log'.toList → P a log' → Careful log' (f a) Q) : Careful log (x >>= f) Q := by
  intro r hr hlog
  have hend := hx r hr hlog
  change EndsWell log Q (EStateM.bind x f r)
  unfold EStateM.bind
  cases hxr : x r with
  | error e r₁ =>
    rw [hxr] at hend
    cases e <;> exact hend
  | ok a r₁ =>
    rw [hxr] at hend
    obtain ⟨hr₁, hlog₁, ha⟩ := hend
    have hend₁ := hf a r₁.log hlog₁ ha r₁ hr₁ (List.Subset.refl _)
    exact hend₁.mono hlog₁

private theorem careful_bind_get {f : Reader σ → Reading σ α}
    (h : ∀ r, r.IsSound → Careful r.log (f r) P) : Careful log (get >>= f) P :=
  fun r hr hlog => (h r hr r hr (List.Subset.refl _)).mono hlog

private theorem Careful.ite {c : Prop} [Decidable c] {y : Reading σ α} (hx : c → Careful log x P)
    (hy : ¬ c → Careful log y P) : Careful log (if c then x else y) P := by
  by_cases hc : c
  · rw [if_pos hc]
    exact hx hc
  · rw [if_neg hc]
    exact hy hc

private theorem Careful.within (h : Careful log x P) (context : FormulaError → FormulaError) :
    Careful log (within context x) P := by
  intro r hr hlog
  have hend := h r hr hlog
  change EndsWell log P (EStateM.adaptExcept _ x r)
  unfold EStateM.adaptExcept
  cases hx : x r with
  | ok a r' =>
    rw [hx] at hend
    exact hend
  | error e r' =>
    rw [hx] at hend
    cases e <;> exact hend

private theorem careful_onStream {x : EStateM StreamError σ α} {p : α → Prop} (h : ∀ s a s', x s = .ok a s' → p a) :
    Careful log (onStream x) fun a _ => p a := by
  intro r hr hlog
  unfold onStream
  cases hx : x r.stream with
  | ok a s => exact ⟨⟨hr.accords, hr.accepted⟩, hlog, h _ _ _ hx⟩
  | error e s => trivial

private theorem careful_stream (x : EStateM StreamError σ α) : Careful log (onStream x) fun _ _ => True :=
  careful_onStream fun _ _ _ _ => trivial

private theorem careful_onFormula {f : Formula → Formula}
    (h : ∀ g log', log.toList ⊆ log'.toList → g.Accords log' → (f g).Accords log') :
    Careful log (onFormula f : Reading σ Unit) fun _ _ => True :=
  fun _ hr hlog => ⟨⟨h _ _ hlog hr.accords, hr.accepted⟩, hlog, trivial⟩

private theorem careful_report {event : Event} (h : ∀ e, event ≠ .formulaNotRead e) :
    Careful log (report event : Reading σ Unit) fun _ log' => event ∈ log'.toList := by
  intro r hr hlog
  have hpush : (r.log.push event).toList = r.log.toList ++ [event] := Array.toList_push
  have hle : r.log.toList ⊆ (r.log.push event).toList := hpush ▸ List.subset_append_left _ _
  refine ⟨⟨hr.accords.mono hle, fun e he => ?_⟩, List.Subset.trans hlog hle, ?_⟩
  · rw [hpush, List.mem_append, List.mem_singleton] at he
    exact he.elim (hr.accepted e) fun he => h e he.symm
  · change event ∈ (r.log.push event).toList
    rw [hpush]
    exact List.mem_concat_self

private theorem careful_modify_format (format : WeightFormat) :
    Careful log (modify fun r => { r with format } : Reading σ PUnit) fun _ _ => True :=
  fun _ hr hlog => ⟨⟨hr.accords, hr.accepted⟩, hlog, trivial⟩

private theorem careful_fault {cause : Fault} (h : log.Explains cause) :
    Careful log (throw (.fault cause) : Reading σ α) P := by
  intro r hr hlog
  obtain ⟨n, hn, hlimit, hannounced⟩ := h
  exact ⟨n, hn, hlimit, hannounced.mono hlog⟩

private theorem explains_noSuchVariable {n : Int} (hn : n.natAbs ≠ 0) (h : Variable.ofNumber? n.natAbs = none)
    (hannounced : log.Announces n.natAbs) : log.Explains (.noSuchVariable n) :=
  ⟨n, rfl, Variable.limit_lt_of_ofNumber? h hn, hannounced⟩

private theorem careful_ofNumber {n : Int} (hn : 0 < n) (hannounced : log.Announces n.natAbs) :
    Careful log (assume (Variable.ofNumber n) : Reading σ Variable) fun v log' => log'.Announces v.number := by
  have hnat : n.toNat = n.natAbs := by omega
  have hne : n.natAbs ≠ 0 := by omega
  rw [Variable.ofNumber, hnat]
  cases hnumber : Variable.ofNumber? n.natAbs with
  | none => exact careful_fault (explains_noSuchVariable hne hnumber hannounced)
  | some v =>
    refine careful_pure fun log' hlog => ?_
    rw [Variable.number_of_ofNumber? hnumber]
    exact hannounced.mono hlog

private theorem careful_ofInt {n : Int} (hn : n ≠ 0) (hannounced : log.Announces n.natAbs) :
    Careful log (assume (Literal.ofInt n) : Reading σ Literal) fun l log' => log'.Announces l.var.number := by
  rw [Literal.ofInt, Literal.ofInt?]
  cases hnumber : Variable.ofNumber? n.natAbs with
  | none => exact careful_fault (explains_noSuchVariable (Int.natAbs_ne_zero.mpr hn) hnumber hannounced)
  | some v =>
    refine careful_pure fun log' hlog => ?_
    rw [Variable.number_of_ofNumber? hnumber]
    exact hannounced.mono hlog

private theorem careful_settle (format : WeightFormat) : Careful log (settle format : Reading σ Unit) fun _ _ => True :=
  (careful_report fun _ => by nofun).bind fun _ _ _ _ =>
    (careful_onFormula fun _ _ _ hg => hg.addLine _).bind fun _ _ _ _ => careful_modify_format format

private theorem careful_recordWeight {l : Literal} (hl : log.Announces l.var.number) (text : List Char) :
    Careful log (recordWeight l text : Reading σ Unit) fun _ _ => True := by
  unfold recordWeight
  cases hread : Weight.read text with
  | ok w =>
    exact careful_onFormula fun _ _ hle hg => hg.setWeight (hl.mono hle) fun _ => Weight.isUnsigned_of_read hread
  | error e =>
    exact (careful_report fun _ => by nofun).bind fun _ _ hlog _ =>
      careful_onFormula fun _ _ hle hg =>
        hg.setWeight (hl.mono (List.Subset.trans hlog hle)) fun _ => Weight.isUnsigned_invalid

private theorem careful_require (c : Bool) (e : FormulaError) :
    Careful log (require c e : Reading σ Unit) fun _ _ => c = true :=
  .ite (fun hc => careful_pure fun _ _ => hc) fun _ => careful_refuse e

private theorem integer?_lt {text : List Char} {n : Int} (h : ByteStream.integer? text = some n) : n < 2 ^ 63 := by
  obtain ⟨-, hn⟩ := Option.filter_eq_some_iff.mp h
  rw [Bool.and_eq_true, decide_eq_true_eq, decide_eq_true_eq] at hn
  exact hn.2

private theorem careful_meetWeightLine : Careful log (meetWeightLine : Reading σ Unit) fun _ _ => True := by
  refine careful_bind_get fun r _ => ?_
  cases r.format with
  | minic2d => exact careful_refuse _
  | detect => exact careful_modify_format _
  | _ => exact careful_pure fun _ _ => trivial

private theorem careful_meetLiteral (l : Literal) : Careful log (meetLiteral l : Reading σ Unit) fun _ _ => True := by
  refine .ite (fun _ => careful_pure fun _ _ => trivial) fun _ => careful_bind_get fun r _ => ?_
  cases r.format with
  | cachet => exact careful_refuse _
  | cachetOrMc20 => exact careful_settle _
  | _ => exact careful_pure fun _ _ => trivial

private theorem careful_meetNoWeight : Careful log (meetNoWeight : Reading σ Unit) fun _ _ => True := by
  refine careful_bind_get fun r _ => ?_
  cases r.format with
  | cachetOrMc20 => exact careful_settle _
  | cachet => exact careful_pure fun _ _ => trivial
  | _ => exact careful_refuse _

private theorem careful_complete : Careful log (complete : Reading σ Unit) fun _ _ => True := by
  refine careful_bind_get fun r hr => ?_
  have hcomplete : Careful r.log (assume r.formula.completeAllWeights : Reading σ Formula) fun f log' =>
      f.Accords log' := by
    rcases hr.accords.completeAllWeights with ⟨g, hg, hgaccords⟩ | ⟨cause, hcause, hexplains⟩
    · rw [hg]
      exact careful_pure fun _ hlog => hgaccords.mono hlog
    · rw [hcause]
      exact careful_fault hexplains
  exact hcomplete.bind fun f _ _ hf => careful_onFormula fun _ _ hle _ => hf.mono hle

private theorem careful_finish : Careful log (finish : Reading σ Unit) fun _ _ => True := by
  refine careful_bind_get fun r _ => ?_
  cases r.format with
  | cachetOrMc20 => exact (careful_settle _).bind fun _ _ _ _ => careful_complete
  | cachet => exact careful_complete
  | _ => exact careful_pure fun _ _ => trivial

variable [ByteStream σ]

theorem integer_lt {s s' : σ} {n : Int} (h : integer s = .ok n s') : n < 2 ^ 63 := by
  obtain ⟨text, s₁, -, hn⟩ := run_bind_eq_ok.mp h
  cases hm : ByteStream.integer? text with
  | some m =>
    simp only [hm] at hn
    cases hn
    exact integer?_lt hm
  | none =>
    simp only [hm] at hn
    cases hn

private theorem careful_integer : Careful log (onStream integer : Reading σ Int) fun n _ => n < 2 ^ 63 :=
  careful_onStream fun _ _ _ => integer_lt

private theorem careful_header : Careful log (header : Reading σ Unit) fun _ _ => True := by
  refine (careful_stream _).bind fun _ _ _ _ => (careful_require _ _).bind fun _ _ _ _ => careful_integer.bind
    fun variableCount _ _ hvariables => careful_integer.bind fun clauseCount _ _ hclauses =>
      (careful_require _ _).bind fun _ _ _ _ => (careful_require _ _).bind fun _ _ _ _ =>
        (careful_report fun _ => by nofun).bind fun _ log₁ _ hreport => careful_onFormula fun g log' hle hg => ?_
  exact ⟨(Int.toNat_lt' (by decide)).mpr hvariables, (Int.toNat_lt' (by decide)).mpr hclauses,
    fun n hn => .inr ⟨_, _, hle hreport, hn⟩, hg.support, hg.weights, hg.isUnsigned⟩

private theorem careful_literal :
    Careful log (literal : Reading σ Literal) fun l log' => log'.Announces l.var.number := by
  refine careful_integer.bind fun n _ _ _ => careful_bind_get fun r hr => (careful_require _ _).bind
    fun _ log₁ hlog hn => ?_
  obtain ⟨hne, hannounced⟩ := hr.accords.announces hn
  exact careful_ofInt hne (hannounced.mono hlog)

private theorem careful_weightLine : Careful log (weightLine : Reading σ Unit) fun _ _ => True := by
  refine (careful_stream _).bind fun _ _ _ _ => (careful_require _ _).bind fun _ _ _ _ =>
    careful_meetWeightLine.bind fun _ _ _ _ => careful_literal.bind fun l _ _ hl =>
      (careful_meetLiteral l).bind fun _ _ hlog _ => (careful_stream _).bind fun weight _ hlog' _ => ?_
  have hl' := (hl.mono hlog).mono hlog'
  refine .ite (fun _ => careful_meetNoWeight.bind fun _ _ hlog₁ _ => careful_onFormula fun _ _ hle hg => ?_)
    fun _ => careful_recordWeight hl' weight
  have hl₁ := (hl'.mono hlog₁).mono hle
  exact (hg.setWeight hl₁ fun _ => Weight.isUnsigned_one).setWeight hl₁ fun _ => Weight.isUnsigned_one

private theorem careful_nextWord (words : List (List Char)) :
    Careful log (nextWord words : Reading σ (List Char × List (List Char))) fun _ _ => True := by
  cases words with
  | nil => exact (careful_stream _).bind fun _ _ _ _ => careful_pure fun _ _ => trivial
  | cons word words => exact careful_pure fun _ _ => trivial

private theorem careful_supportList (fuel : Nat) (words : List (List Char)) :
    Careful log (supportList fuel words : Reading σ Unit) fun _ _ => True := by
  induction fuel generalizing log words with
  | zero => exact careful_pure fun _ _ => trivial
  | succ fuel ih =>
    refine (careful_nextWord words).bind fun (word, words) _ _ _ => ?_
    dsimp only
    cases ByteStream.integer? word with
    | none => exact careful_refuse _
    | some n =>
      refine .ite (fun _ => careful_pure fun _ _ => trivial) fun _ => careful_bind_get fun r hr =>
        (careful_require _ _).bind fun _ _ hlog hn => ?_
      rw [Bool.and_eq_true, decide_eq_true_eq] at hn
      have hannounced := (hr.accords.announces hn.2).2.mono hlog
      exact (careful_ofNumber hn.1 hannounced).bind fun v _ _ hv =>
        (careful_onFormula fun _ _ hle hg => hg.addSupport (hv.mono hle)).bind fun _ _ _ _ => ih words

private theorem careful_weightList {count number : Nat} (words : List (List Char)) (hnumber : 0 < number)
    (hannounced : ∀ n, n < number + count → n = 0 ∨ log.Announces n) :
    Careful log (weightList count number words : Reading σ Unit) fun _ _ => True := by
  induction count generalizing log number words with
  | zero => exact careful_pure fun _ _ => trivial
  | succ count ih =>
    have hfirst := (hannounced number (by omega)).resolve_left hnumber.ne'
    refine (careful_ofNumber (Int.natCast_pos.mpr hnumber) hfirst).bind fun v _ hlog₁ hv =>
      ((careful_nextWord words).within _).bind fun (weight, words) _ hlog₂ _ =>
        (careful_recordWeight (hv.mono hlog₂) weight).bind fun _ _ hlog₃ _ =>
          ((careful_nextWord words).within _).bind fun (weight, words) _ hlog₄ _ =>
            (careful_recordWeight (((hv.mono hlog₂).mono hlog₃).mono hlog₄) weight).bind fun _ _ hlog₅ _ => ?_
    refine ih words (Nat.succ_pos number) fun n hn => (hannounced n (by omega)).imp_right fun h => ?_
    exact ((((h.mono hlog₁).mono hlog₂).mono hlog₃).mono hlog₄).mono hlog₅

private theorem careful_comment : Careful log (comment : Reading σ Unit) fun _ _ => True := by
  refine (careful_stream _).bind fun _ _ _ _ => (careful_stream _).bind fun rest _ _ _ =>
    careful_bind_get fun r hr => ?_
  have hlist {log' : Log} (hlog : r.log.toList ⊆ log'.toList) :
      Careful log' (weightList r.formula.variableCount 1 (Text.words rest).tail : Reading σ Unit) fun _ _ => True :=
    careful_weightList _ Nat.one_pos fun n hn => (hr.accords.announced n (by omega)).imp_right (·.mono hlog)
  refine .ite (fun _ => careful_supportList _ _) fun _ => .ite (fun _ => .ite (fun _ => ?_) fun _ => ?_) fun _ => ?_
  · exact (careful_settle _).bind fun _ _ hlog _ => hlist hlog
  · exact hlist (List.Subset.refl _)
  · exact careful_onFormula fun _ _ _ hg => hg.addLine _

private theorem careful_otherLine : Careful log (otherLine : Reading σ Unit) fun _ _ => True :=
  (careful_stream _).bind fun _ _ _ _ => careful_onFormula fun _ _ _ hg => hg.addLine _

private theorem careful_item (first : UInt8) : Careful log (item first : Reading σ Unit) fun _ _ => True :=
  .ite (fun _ => careful_header) fun _ => .ite (fun _ => careful_weightLine) fun _ =>
    .ite (fun _ => careful_comment) fun _ => careful_otherLine

/-- A whole file is read carefully, item by item. -/
theorem careful_file (fuel : Nat) : Careful log (file fuel : Reading σ Unit) fun _ _ => True := by
  induction fuel generalizing log with
  | zero => exact careful_finish
  | succ fuel ih =>
    refine (careful_stream _).bind fun _ _ _ _ => careful_bind_get fun r _ => (careful_stream _).bind
      fun next _ _ _ => ?_
    cases next with
    | none => exact careful_finish
    | some first =>
      exact ((careful_item first).within _).bind fun _ _ _ _ => (careful_stream _).bind fun _ _ _ _ => ih

end Reading
end WeightedCnf

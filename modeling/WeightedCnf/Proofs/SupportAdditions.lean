import WeightedCnf.Proofs.AcceptedTexts
import WeightedCnf.Proofs.FaithfulReading

/-! The variables that reading adds to the support: those of the support lists of a text, in order, as far as it is
read. Nothing else changes the support, and an error leaves what was added before. -/
namespace WeightedCnf
open ByteStream (integer? restOfLine skipBlanks skipLine unread)

/-- The variable that a word of a support list stands for, if it is one of the formula. -/
def Formula.listed? (f : Formula) (word : List Char) : Option Variable :=
  (integer? word).bind fun n => if 0 < n && f.hasLiteral n then (Variable.ofNumber n).toOption else none

namespace Reading
variable {σ α β : Type} {r : Reader σ} {x y : Reading σ α} {vs : List Variable}

/-- From this reader the computation adds these variables to the support, one after the other, whether it fails or
not. -/
def AddsFrom (r : Reader σ) (x : Reading σ α) (vs : List Variable) : Prop :=
  (left (x r)).formula.support = vs.foldl Support.insert r.formula.support

private theorem AddsFrom.bind {f : α → Reading σ β} (hx : AddsFrom r x []) (hf : ∀ a r', AddsFrom r' (f a) []) :
    AddsFrom r (x >>= f) [] := by
  unfold AddsFrom at hx ⊢
  cases hxr : x r with
  | error e r₁ =>
    rw [run_bind_of_error hxr]
    rwa [hxr] at hx
  | ok a r₁ =>
    rw [run_bind_of_ok hxr]
    rw [hxr] at hx
    exact (hf a r₁).trans hx

private theorem AddsFrom.ite {c : Prop} [Decidable c] (hx : AddsFrom r x vs) (hy : AddsFrom r y vs) :
    AddsFrom r (if c then x else y) vs := by
  by_cases hc : c
  · rwa [if_pos hc]
  · rwa [if_neg hc]

private theorem AddsFrom.within (h : AddsFrom r x vs) (context : FormulaError → FormulaError) :
    AddsFrom r (within context x) vs := by
  rwa [AddsFrom, left_within]

private theorem adds_pure (a : α) : AddsFrom r (pure a) [] := rfl

private theorem adds_throw (e : Stop FormulaError) : AddsFrom r (throw e : Reading σ α) [] := rfl

private theorem adds_bind_get {f : Reader σ → Reading σ α} (h : AddsFrom r (f r) vs) : AddsFrom r (get >>= f) vs := h

private theorem adds_onStream (x : EStateM StreamError σ α) : AddsFrom r (onStream x) [] := by
  unfold AddsFrom onStream
  cases x r.stream <;> rfl

private theorem adds_onFormula {f : Formula → Formula} (h : ∀ g, (f g).support = g.support) :
    AddsFrom r (onFormula f) [] :=
  h r.formula

private theorem adds_report (event : Event) : AddsFrom r (report event) [] := rfl

private theorem adds_require (c : Bool) (e : FormulaError) : AddsFrom r (require c e) [] :=
  .ite (adds_pure ()) (adds_throw _)

private theorem adds_assume (x : Except Fault α) : AddsFrom r (assume x) [] := by
  cases x with
  | ok a => exact adds_pure a
  | error e => exact adds_throw _

private theorem adds_settle (format : WeightFormat) : AddsFrom r (settle format) [] := rfl

private theorem adds_recordWeight (l : Literal) (text : List Char) : AddsFrom r (recordWeight l text) [] := by
  unfold recordWeight
  cases Weight.read text with
  | ok w => exact adds_onFormula fun _ => rfl
  | error e => exact (adds_report _).bind fun _ _ => adds_onFormula fun _ => rfl

private theorem adds_meetWeightLine (r : Reader σ) : AddsFrom r meetWeightLine [] := by
  obtain ⟨stream, format, formula, log⟩ := r
  cases format <;> rfl

private theorem adds_meetLiteral (l : Literal) (r : Reader σ) : AddsFrom r (meetLiteral l) [] := by
  refine .ite (adds_pure _) (adds_bind_get ?_)
  obtain ⟨stream, format, formula, log⟩ := r
  cases format <;> rfl

private theorem adds_meetNoWeight (r : Reader σ) : AddsFrom r meetNoWeight [] := by
  obtain ⟨stream, format, formula, log⟩ := r
  cases format <;> rfl

private theorem adds_finish (r : Reader σ) : AddsFrom r finish [] := by
  have hcomplete (r : Reader σ) : AddsFrom r complete [] := by
    refine adds_bind_get ?_
    unfold AddsFrom
    cases hcompleted : r.formula.completeAllWeights with
    | error cause => rfl
    | ok f => exact (congrArg Formula.support (Formula.completeAllWeights_eq hcompleted) :)
  refine adds_bind_get ?_
  obtain ⟨stream, format, formula, log⟩ := r
  cases format with
  | cachetOrMc20 => exact (adds_settle _).bind fun _ => hcomplete
  | cachet => exact hcomplete _
  | _ => exact adds_pure ()

private theorem adds_weight (l : Literal) (token : List Char) (r : Reader σ) :
    AddsFrom r (entry (.weight l token)) [] := by
  refine (adds_meetWeightLine r).bind fun _ r₁ => (adds_meetLiteral l r₁).bind fun _ r₂ => ?_
  exact .ite ((adds_meetNoWeight r₂).bind fun _ _ => adds_onFormula fun _ => rfl) (adds_recordWeight l token)

variable [ByteStream σ]

private theorem adds_nextWord (words : List (List Char)) : AddsFrom r (nextWord words) [] := by
  cases words with
  | nil => exact (adds_onStream _).bind fun _ _ => adds_pure _
  | cons word words => exact adds_pure _

private theorem adds_header (r : Reader σ) : AddsFrom r header [] :=
  (adds_onStream _).bind fun _ _ => (adds_require _ _).bind fun _ _ => (adds_onStream _).bind fun _ _ =>
    (adds_onStream _).bind fun _ _ => (adds_require _ _).bind fun _ _ => (adds_require _ _).bind fun _ _ =>
      (adds_report _).bind fun _ _ => adds_onFormula fun _ => rfl

private theorem adds_literal (r : Reader σ) : AddsFrom r literal [] :=
  (adds_onStream _).bind fun _ _ => adds_bind_get ((adds_require _ _).bind fun _ _ => adds_assume _)

private theorem adds_weightLine (r : Reader σ) : AddsFrom r weightLine [] := by
  refine (adds_onStream _).bind fun _ _ => (adds_require _ _).bind fun _ r₁ => (adds_meetWeightLine r₁).bind
    fun _ r₂ => (adds_literal r₂).bind fun l r₃ => (adds_meetLiteral l r₃).bind fun _ _ => (adds_onStream _).bind
      fun weight r₄ => ?_
  exact .ite ((adds_meetNoWeight r₄).bind fun _ _ => adds_onFormula fun _ => rfl) (adds_recordWeight l weight)

private theorem adds_weightList (count number : Nat) (words : List (List Char)) (r : Reader σ) :
    AddsFrom r (weightList count number words) [] := by
  induction count generalizing number words r with
  | zero => exact adds_pure _
  | succ count ih =>
    exact (adds_assume _).bind fun v _ => ((adds_nextWord words).within _).bind fun (weight, words) _ =>
      (adds_recordWeight _ weight).bind fun _ _ => ((adds_nextWord words).within _).bind
        fun (weight, words) _ => (adds_recordWeight _ weight).bind fun _ => ih (number + 1) words

def supportAdditions : (fuel : Nat) → (words : List (List Char)) → Reader σ → List Variable
  | 0, _, _ => []
  | fuel + 1, words, r =>
    match nextWord words r with
    | .error _ _ => []
    | .ok (word, words) r =>
      match r.formula.listed? word with
      | none => []
      | some v => v :: supportAdditions fuel words { r with formula := r.formula.addSupport v }

def commentAdditions (r : Reader σ) : List Variable :=
  match onStream restOfLine { r with stream := ByteStream.pass r.stream } with
  | .error _ _ => []
  | .ok rest r =>
    if rest.head?.any Text.isAsciiBlank && (Text.words rest).head? == some "ind".toList then
      supportAdditions ((Text.words rest).length + unread r.stream + 1) (Text.words rest).tail r
    else []

def itemAdditions (first : UInt8) (r : Reader σ) : List Variable :=
  if first = 'c'.toUInt8 then commentAdditions r else []

def fileAdditions : (fuel : Nat) → Reader σ → List Variable
  | 0, _ => []
  | fuel + 1, r =>
    match (onStream skipBlanks >>= fun _ => onStream ByteStream.peek : Reading σ (Option UInt8)) r with
    | .ok (some first) r =>
      itemAdditions first r ++
        match (item first >>= fun _ => onStream skipLine : Reading σ Unit) r with
        | .ok () r => fileAdditions fuel r
        | .error _ _ => []
    | _ => []

section Words
variable {fuel : Nat} {words words' : List (List Char)} {word : List Char} {r₁ : Reader σ}
  (hword : nextWord words r = .ok (word, words') r₁)
include hword

private theorem supportList_of_listed {v : Variable} (hv : r₁.formula.listed? word = some v) :
    supportList (fuel + 1) words r =
    supportList fuel words' { r₁ with formula := r₁.formula.addSupport v } := by
  obtain ⟨n, hn, hv⟩ := Option.bind_eq_some_iff.mp hv
  rw [Option.ite_none_right_eq_some] at hv
  obtain ⟨hrange, hv⟩ := hv
  have hne : n ≠ 0 := by
    rintro rfl
    cases hrange
  cases hnumber : Variable.ofNumber n with
  | error cause =>
    rw [hnumber] at hv
    cases hv
  | ok u =>
    rw [hnumber] at hv
    cases hv
    rw [supportList, run_bind_of_ok hword]
    dsimp only
    rw [hn]
    dsimp only
    rw [if_neg hne, run_bind_of_ok (x := get) (s := r₁) rfl, hrange, hnumber]
    rfl

private theorem left_supportList_of_not_listed (hnone : r₁.formula.listed? word = none) :
    left (supportList (fuel + 1) words r) = r₁ := by
  unfold Formula.listed? at hnone
  rw [supportList, run_bind_of_ok hword]
  dsimp only
  cases hn : integer? word with
  | none => rfl
  | some n =>
    rw [hn, Option.bind_some] at hnone
    dsimp only
    by_cases hzero : n = 0
    · rw [if_pos hzero]
      rfl
    rw [if_neg hzero, run_bind_of_ok (x := get) (s := r₁) rfl]
    by_cases hrange : (0 < n && r₁.formula.hasLiteral n) = true
    · rw [if_pos hrange] at hnone
      cases hnumber : Variable.ofNumber n with
      | error cause =>
        rw [hrange]
        rfl
      | ok v =>
        rw [hnumber] at hnone
        cases hnone
    · rw [Bool.not_eq_true] at hrange
      rw [hrange]
      rfl

end Words

private theorem adds_supportList (fuel : Nat) (words : List (List Char)) (r : Reader σ) :
    AddsFrom r (supportList fuel words) (supportAdditions fuel words r) := by
  induction fuel generalizing words r with
  | zero => rfl
  | succ fuel ih =>
    have hnext := adds_nextWord (r := r) words
    unfold AddsFrom at hnext ⊢
    unfold supportAdditions
    cases hword : nextWord words r with
    | error e r₁ =>
      rw [supportList, run_bind_of_error hword]
      rwa [hword] at hnext
    | ok next r₁ =>
      obtain ⟨word, words'⟩ := next
      rw [hword] at hnext
      dsimp only
      cases hlisted : r₁.formula.listed? word with
      | none =>
        rw [left_supportList_of_not_listed hword hlisted]
        exact hnext
      | some v =>
        rw [supportList_of_listed hword hlisted, ih]
        exact congrArg (fun s => (v :: supportAdditions _ _ _).foldl Support.insert s) hnext

private theorem adds_comment (r : Reader σ) : AddsFrom r comment (commentAdditions r) := by
  have hpass : onStream (modify ByteStream.pass) r = .ok () { r with stream := ByteStream.pass r.stream } := rfl
  unfold AddsFrom commentAdditions
  rw [comment, run_bind_of_ok hpass]
  have hline := adds_onStream (r := { r with stream := ByteStream.pass r.stream }) restOfLine
  unfold AddsFrom at hline
  cases hrest : onStream restOfLine { r with stream := ByteStream.pass r.stream } with
  | error e r₁ =>
    rw [run_bind_of_error hrest]
    rwa [hrest] at hline
  | ok rest r₁ =>
    rw [hrest] at hline
    rw [run_bind_of_ok hrest, run_bind_of_ok (x := get) (s := r₁) rfl]
    dsimp only
    have hsame : r₁.formula.support = r.formula.support := hline
    rw [← hsame]
    split
    · exact adds_supportList _ _ _
    · refine AddsFrom.ite ?_ (adds_onFormula fun _ => rfl)
      exact .ite ((adds_settle _).bind fun _ => adds_weightList _ _ _) (adds_weightList _ _ _ _)

private theorem adds_item (first : UInt8) (r : Reader σ) : AddsFrom r (item first) (itemAdditions first r) := by
  have hother : AddsFrom r otherLine [] := (adds_onStream _).bind fun _ _ => adds_onFormula fun _ => rfl
  unfold item itemAdditions
  split
  · rename_i hp
    rw [hp, if_neg (by decide)]
    exact adds_header r
  split
  · rename_i hw
    rw [hw, if_neg (by decide)]
    exact adds_weightLine r
  split
  · exact adds_comment r
  · exact hother

private theorem adds_line {first : UInt8} {context : FormulaError → FormulaError} {y : Reading σ Unit}
    {additions : Reader σ → List Variable} (hy : ∀ r, AddsFrom r y (additions r)) (r : Reader σ) :
    AddsFrom r (within context (item first) >>= fun _ => onStream skipLine >>= fun _ => y)
      (itemAdditions first r ++
        match (item first >>= fun _ => onStream skipLine : Reading σ Unit) r with
        | .ok () r => additions r
        | .error _ _ => []) := by
  have hitem := adds_item first r
  unfold AddsFrom at hitem ⊢
  rw [List.foldl_append, ← hitem]
  cases hrun : item first r with
  | error stop r₁ =>
    rw [run_bind_of_error (within_of_error context hrun), run_bind_of_error hrun]
    rfl
  | ok u r₁ =>
    rw [run_bind_of_ok (within_eq_ok.mpr hrun), run_bind_of_ok hrun]
    have hskip := adds_onStream (r := r₁) skipLine
    unfold AddsFrom at hskip
    cases hline : onStream skipLine r₁ with
    | error stop r₂ =>
      rw [run_bind_of_error hline]
      rwa [hline] at hskip
    | ok u r₂ =>
      rw [run_bind_of_ok hline, hy]
      rw [hline] at hskip
      exact congrArg (fun s => (additions r₂).foldl Support.insert s) hskip

/-- Reading a file adds what its items add, up to the end or to an error. -/
private theorem adds_file (fuel : Nat) (r : Reader σ) : AddsFrom r (file fuel) (fileAdditions fuel r) := by
  induction fuel generalizing r with
  | zero => exact adds_finish r
  | succ fuel ih =>
    have hskip := adds_onStream (r := r) skipBlanks
    unfold AddsFrom at hskip ⊢
    unfold fileAdditions
    rw [file]
    cases hblanks : onStream skipBlanks r with
    | error stop r₁ =>
      rw [run_bind_of_error hblanks, run_bind_of_error hblanks]
      rwa [hblanks] at hskip
    | ok u r₁ =>
      rw [hblanks] at hskip
      rw [run_bind_of_ok hblanks, run_bind_of_ok hblanks, run_bind_of_ok (x := get) (s := r₁) rfl]
      have hpeek := adds_onStream (r := r₁) ByteStream.peek
      unfold AddsFrom at hpeek
      cases hnext : onStream ByteStream.peek r₁ with
      | error stop r₂ =>
        rw [run_bind_of_error hnext]
        rw [hnext] at hpeek
        exact hpeek.trans hskip
      | ok next r₂ =>
        rw [hnext] at hpeek
        rw [run_bind_of_ok hnext]
        have hsame : r₂.formula.support = r.formula.support := hpeek.trans hskip
        cases next with
        | none => exact (adds_finish r₂).trans hsame
        | some first =>
          rw [← hsame]
          exact adds_line ih r₂

end Reading

namespace Formula
variable {source : Source} {format : WeightFormat} {f : Formula} {log : Log}

/-- The variables that reading a source adds to the support, in order; a variable can be added again. -/
def additions (source : Source) (format : WeightFormat) : List Variable :=
  Reading.fileAdditions (source.content.length + 1) { stream := BufferedStream.ofSourceUsual source, format }

/-- The support of a formula that was read is made of the additions, also if the text was refused in the end. -/
theorem support_parse (h : parse source format #[] = .ok f log) :
    f.support = (additions source format).foldl Support.insert .empty := by
  have hunread : unread (BufferedStream.ofSourceUsual source) = source.content.length := Nat.zero_add _
  have hadds := Reading.adds_file (source.content.length + 1)
    { stream := BufferedStream.ofSourceUsual source, format }
  unfold Reading.AddsFrom at hadds
  obtain ⟨r, hread⟩ := readFrom_eq_ok h
  rw [hunread] at hread
  rcases hread with ⟨hfile, rfl, -⟩ | ⟨e, hfile, rfl, -⟩
  · rw [hfile] at hadds
    exact hadds
  · rw [hfile] at hadds
    exact hadds

end Formula

def Item.supported : Item → List Variable
  | .entry (.support vs) => vs
  | .header _ _ | .entry (.kept _) | .entry (.weight _ _) | .weights _ => []

namespace Reading
variable {σ : Type}

private theorem adds_recordWeights (number : Nat) (tokens : List (List Char)) (r : Reader σ) :
    AddsFrom r (recordWeights number tokens) [] := by
  induction number, tokens using recordWeights.induct generalizing r with
  | case1 number positive negative tokens ih =>
    exact (adds_assume _).bind fun v _ => (adds_recordWeight _ _).bind fun _ _ =>
      (adds_recordWeight _ _).bind fun _ r => ih r
  | case2 number tokens hshort =>
    rw [recordWeights]
    · exact adds_pure _
    · exact hshort

private theorem adds_perform (i : Item) (r : Reader σ) : AddsFrom r (perform i) i.supported := by
  cases i with
  | header variableCount clauseCount => rfl
  | entry e =>
    cases e with
    | kept text => rfl
    | support vs => exact congrArg Formula.support (Formula.foldl_addSupport vs r.formula)
    | weight l token => exact adds_weight l token r
  | weights tokens =>
    have hmeet : AddsFrom r meetWeights [] := by
      refine adds_bind_get ?_
      exact .ite (adds_settle _) (adds_pure _)
    exact hmeet.bind fun _ => adds_recordWeights 1 tokens

private theorem support_items {is : List Item} {r d : Reader σ} {u : Unit} (h : items is r = .ok u d) :
    d.formula.support = (is.flatMap Item.supported).foldl Support.insert r.formula.support := by
  induction is generalizing r with
  | nil =>
    cases h
    rfl
  | cons i is ih =>
    rw [items_cons] at h
    obtain ⟨_, r₁, hperform, h⟩ := run_bind_eq_ok.mp h
    have hadds := adds_perform i r
    rw [AddsFrom, hperform] at hadds
    rw [ih h, List.flatMap_cons, List.foldl_append, ← hadds]
    rfl

end Reading

namespace Formula
variable {source : Source} {format : WeightFormat} {f : Formula} {log : Log}

theorem toList_foldl_insert_empty (vs : List Variable) :
    (vs.foldl Support.insert .empty).toList = vs.eraseDups := by
  have hnew (v : Variable) : (!Support.empty.contains v) = true := by
    simp [Support.empty, Support.contains]
  rw [Support.toList_foldl_insert_eq, List.filter_eq_self.mpr fun v _ => hnew v]
  rfl

/-- In a text that is read without a complaint the additions are the members of the support lists, in the order of the
text. -/
theorem foldl_insert_additions (hending : source.ending = .endOfInput) (hparse : parse source format #[] = .ok f log)
    (haccepted : ∀ e, .formulaNotRead e ∉ log.toList) {is : List Item} (his : ItemsAt format.context source.content is) :
    (additions source format).foldl Support.insert .empty = (is.flatMap Item.supported).foldl Support.insert .empty := by
  obtain ⟨d, d', hitems, hfinish, rfl, -⟩ := (parse_items hending hparse haccepted).2 is his
  have hadds := Reading.adds_finish d
  rw [Reading.AddsFrom, hfinish] at hadds
  have hsupport : d'.formula.support = (is.flatMap Item.supported).foldl Support.insert .empty :=
    hadds.trans (Reading.support_items hitems)
  exact (support_parse hparse).symm.trans hsupport

end Formula
end WeightedCnf

import WeightedCnf.Proofs.EntryReading
import WeightedCnf.Proofs.ExplicitFormat
import WeightedCnf.Proofs.WeightCompletion

/-! The order of weight lines does not matter. What reading knows of the format after some of them depends only on
whether there are any, whether one has a negative literal, and whether one stands for no weight; a file that has both
is refused. -/
namespace WeightedCnf
open Text.Utf8 (encode)

/-- What is known of the format after weight lines, if some of them had a negative literal and some had no weight. -/
def WeightFormat.afterLines (negative missing : Bool) : WeightFormat :=
  if negative then .mc20 else if missing then .cachet else .cachetOrMc20

abbrev WeightLines := List (Literal × List Char)

namespace WeightLines

def ofEntries (es : List Entry) : WeightLines :=
  es.filterMap fun
    | .weight l token => some (l, token)
    | _ => none

def hasNegative (ws : WeightLines) : Bool :=
  ws.any (!·.1.positive)

def hasMissing (ws : WeightLines) : Bool :=
  ws.any (·.2 = "-1".toList)

/-- The lines have no format in common. -/
def conflict (ws : WeightLines) : Bool :=
  ws.hasNegative && ws.hasMissing

def format (ws : WeightLines) : WeightFormat :=
  if ws = [] then .detect else .afterLines ws.hasNegative ws.hasMissing

def finalFormat (ws : WeightLines) : WeightFormat :=
  if ws = [] then .detect else if ws.hasNegative then .mc20 else .cachet

def tokenWeight (token : List Char) : Weight :=
  if token = "-1".toList then .one else (Weight.read token).toOption.getD .invalid

/-- A line gives a weight to its literal, and one that stands for no weight to the other literal as well. -/
def gives (w : Literal × List Char) (l : Literal) : Bool :=
  w.1 = l || w.2 = "-1".toList && -w.1 = l

/-- The weight that these lines give to a literal: the first line that gives it one decides. -/
def given (ws : WeightLines) (l : Literal) : Option Weight :=
  (ws.find? (gives · l)).map (tokenWeight ·.2)

def finalGiven (ws : WeightLines) (variableCount : Nat) (l : Literal) : Option Weight :=
  if ws.finalFormat = .cachet ∧ l.var.number ≤ variableCount then some (completedWeight ws.given l) else ws.given l

def lines (ws : WeightLines) : List (List Char) :=
  ws.map fun w => "w ".toList ++ w.1.text ++ ' ' :: w.2

variable {ws : WeightLines} {w : Literal × List Char}

private theorem hasNegative_concat : hasNegative (ws ++ [w]) = (ws.hasNegative || !w.1.positive) := by
  simp [hasNegative]

private theorem hasMissing_concat : hasMissing (ws ++ [w]) = (ws.hasMissing || w.2 = "-1".toList) := by
  simp [hasMissing]

private theorem format_concat : format (ws ++ [w]) =
    .afterLines (ws.hasNegative || !w.1.positive) (ws.hasMissing || w.2 = "-1".toList) := by
  rw [format, if_neg (List.append_ne_nil_of_right_ne_nil _ (List.cons_ne_nil _ _)), hasNegative_concat,
    hasMissing_concat]

private theorem finalFormat_of_conflict (h : ws.conflict = true) : ws.finalFormat ≠ .cachet := by
  rw [conflict, Bool.and_eq_true] at h
  rw [finalFormat, if_pos h.1]
  split <;> nofun

private theorem format_cases (ws : WeightLines) :
    ws.finalFormat = .cachet ∧ (ws.format = .cachet ∨ ws.format = .cachetOrMc20) ∨
      ws.finalFormat ≠ .cachet ∧ ws.format = ws.finalFormat ∧ (ws.format = .detect ∨ ws.format = .mc20) := by
  rw [format, finalFormat, WeightFormat.afterLines]
  by_cases hws : ws = []
  · simp [hws]
  · rw [if_neg hws, if_neg hws]
    cases ws.hasNegative <;> cases ws.hasMissing <;> simp

private theorem given_concat (l : Literal) :
    given (ws ++ [w]) l = (ws.given l).or (if gives w l then some (tokenWeight w.2) else none) := by
  rw [given, List.find?_append, given]
  cases ws.find? (gives · l) with
  | some w' => rfl
  | none =>
    rw [List.find?_singleton]
    by_cases h : gives w l
    · rw [if_pos h, if_pos h]
      rfl
    · rw [if_neg h, if_neg h]
      rfl

theorem given_concat_of_ne {l : Literal} {token : List Char} (h : token ≠ "-1".toList) (k : Literal) :
    given (ws ++ [(l, token)]) k = (ws.given k).or (if l = k then some (tokenWeight token) else none) := by
  rw [given_concat, gives, decide_eq_false h, Bool.false_and, Bool.or_false]
  simp only [decide_eq_true_eq]

/-- A line without a weight comes to two lines. -/
theorem given_concat_missing {l : Literal} {token : List Char} (h : token = "-1".toList) (k : Literal) :
    given (ws ++ [(l, token)]) k =
      ((ws.given k).or (if l = k then some .one else none)).or (if -l = k then some .one else none) := by
  rw [given_concat, gives, decide_eq_true h, Bool.true_and, Option.or_assoc, tokenWeight, if_pos h]
  by_cases hl : l = k
  · simp [hl]
  · simp [hl]

private theorem conflict_append (h : ws.conflict = true) (more : WeightLines) : conflict (ws ++ more) = true := by
  rw [conflict, Bool.and_eq_true] at h ⊢
  simp only [hasNegative, hasMissing, List.any_append, Bool.or_eq_true] at h ⊢
  exact ⟨.inl h.1, .inl h.2⟩

theorem isUnsigned_tokenWeight (token : List Char) : (tokenWeight token).IsUnsigned := by
  rw [tokenWeight]
  split
  · exact Weight.isUnsigned_one
  · cases h : Weight.read token with
    | ok w => exact Weight.isUnsigned_of_read h
    | error e => exact Weight.isUnsigned_invalid

private theorem isUnsigned_given {l : Literal} {w : Weight} (h : ws.given l = some w) : w.IsUnsigned := by
  obtain ⟨line, -, rfl⟩ := Option.map_eq_some_iff.mp h
  exact isUnsigned_tokenWeight line.2

section Perm
variable {ws' : WeightLines} (hperm : ws.Perm ws')
include hperm

private theorem any_congr (p : Literal × List Char → Bool) : ws.any p = ws'.any p := by
  rw [Bool.eq_iff_iff, List.any_eq_true, List.any_eq_true]
  simp only [hperm.mem_iff]

private theorem conflict_congr : ws.conflict = ws'.conflict :=
  congrArg₂ and (any_congr hperm _) (any_congr hperm _)

private theorem finalFormat_congr : ws.finalFormat = ws'.finalFormat := by
  have hnil : ws = [] ↔ ws' = [] := ⟨fun h => (h ▸ hperm).symm.eq_nil, fun h => (h ▸ hperm).eq_nil⟩
  have hnegative : ws.hasNegative = ws'.hasNegative := any_congr hperm _
  simp only [finalFormat, hnil, hnegative]

end Perm

/-- Where no literal has two lines, no two lines give a weight to the same literal: a line that gives one to both
literals of its variable stands for no weight, and then there are no lines for negative literals. -/
private theorem eq_of_gives (hconflict : ws.conflict = false) (hnodup : (ws.map Prod.fst).Nodup)
    {w w' : Literal × List Char}
    (hw : w ∈ ws) (hw' : w' ∈ ws) {l : Literal} (h : gives w l = true) (h' : gives w' l = true) : w = w' := by
  -- a line without a weight and a line for the other literal are in conflict
  have hsign {u u' : Literal × List Char} (hu : u ∈ ws) (hu' : u' ∈ ws) (hmissing : u.2 = "-1".toList)
      (he : -u.1 = u'.1) : False := by
    have hsome : ws.hasMissing = true := List.any_eq_true.mpr ⟨u, hu, decide_eq_true hmissing⟩
    rw [conflict, hsome, Bool.and_true, hasNegative, List.any_eq_false] at hconflict
    have hpositive := hconflict u hu
    have hnegative := hconflict u' hu'
    rw [← he] at hnegative
    have hopposite : (-u.1).positive = !u.1.positive := rfl
    rw [hopposite, Bool.not_not] at hnegative
    rw [Bool.eq_false_of_not_eq_true hnegative] at hpositive
    exact hpositive rfl
  refine List.inj_on_of_nodup_map hnodup hw hw' ?_
  rw [gives, Bool.or_eq_true, Bool.and_eq_true, decide_eq_true_eq, decide_eq_true_eq, decide_eq_true_eq] at h h'
  rcases h with rfl | ⟨hmissing, rfl⟩
  · rcases h' with h' | ⟨hmissing', h'⟩
    · exact h'.symm
    · exact (hsign hw' hw hmissing' h').elim
  · rcases h' with h' | ⟨-, h'⟩
    · exact (hsign hw hw' hmissing h'.symm).elim
    · exact (Literal.neg_injective h').symm

private theorem given_congr {ws' : WeightLines} (hperm : ws.Perm ws') (hconflict : ws.conflict = false)
    (hnodup : (ws.map Prod.fst).Nodup) : ws.given = ws'.given := by
  funext l
  rw [given, given]
  congr 1
  cases hfind : ws.find? (gives · l) with
  | none =>
    symm
    rw [List.find?_eq_none] at hfind ⊢
    exact fun w hw => hfind w (hperm.mem_iff.mpr hw)
  | some w =>
    have hw := List.mem_of_find?_eq_some hfind
    have hl := List.find?_some hfind
    obtain ⟨w', hfind'⟩ : ∃ w', ws'.find? (gives · l) = some w' := by
      rw [← Option.isSome_iff_exists, List.find?_isSome]
      exact ⟨w, hperm.mem_iff.mp hw, hl⟩
    have hw' := hperm.mem_iff.mpr (List.mem_of_find?_eq_some hfind')
    have hl' := List.find?_some hfind'
    rw [hfind', eq_of_gives hconflict hnodup hw hw' hl hl']

private theorem fileAt_lines {f : Formula} (hvariables : f.variableCount < 2 ^ 63) (hclauses : f.clauseCount < 2 ^ 63)
    (hws : ∀ w ∈ ws, w.1.var.number ≤ f.variableCount ∧ Text.IsWord w.2) :
    FileAt (encode (f.headerLine ++ '\n' :: unlines ws.lines)) f.variableCount f.clauseCount
      (ws.map fun w => .weight w.1 w.2) := by
  refine @FileAt.intro [] _ _ _ _ _ (List.forall_mem_nil _) (headerAt_encode hvariables hclauses endsLine_newline) ?_
  rw [Text.nextLine_newline]
  induction ws with
  | nil => exact .nil (List.forall_mem_nil _)
  | cons w ws ih =>
    obtain ⟨hw, htoken⟩ := hws w List.mem_cons_self
    have hentries := ih fun u hu => hws u (List.mem_cons_of_mem w hu)
    rw [← Text.nextLine_newline] at hentries
    have hline : unlines (lines (w :: ws)) =
        "w ".toList ++ w.1.text ++ ' ' :: w.2 ++ '\n' :: unlines (lines ws) := by
      simp [lines, unlines]
    have hentry := entryAt_weight hw htoken (@endsLine_newline (unlines (lines ws))).blank
    rw [← hline] at hentry
    exact @EntriesAt.cons _ [] _ _ _ _ (List.forall_mem_nil _) hentry hentries

end WeightLines

namespace Reading
open WeightLines
variable {σ : Type} {r : Reader σ} {variableCount : Nat} {format : WeightFormat} {given : Literal → Option Weight}

/-- A reader that has refused nothing, and what it knows of weights. -/
structure Knows (r : Reader σ) (variableCount : Nat) (format : WeightFormat) (given : Literal → Option Weight) :
    Prop where
  accepted : ∀ e, .formulaNotRead e ∉ r.log.toList
  variableCount : r.formula.variableCount = variableCount
  format : r.format = format
  weights : ∀ l, r.formula.weights[l]? = given l

private theorem Knows.push (h : Knows r variableCount format given) {event : Event}
    (hevent : ∀ e, event ≠ .formulaNotRead e) :
    ∀ e, .formulaNotRead e ∉ (r.log.push event).toList := by
  intro e he
  rw [Array.toList_push, List.mem_append, List.mem_singleton] at he
  exact he.elim (h.accepted e) fun he => hevent e he.symm

private theorem Knows.setWeight (h : Knows r variableCount format given) (l : Literal) (w : Weight) :
    Knows { r with formula := r.formula.setWeight l w } variableCount format
      fun k => (given k).or (if l = k then some w else none) :=
  ⟨h.accepted, h.variableCount, h.format, fun k => by rw [Formula.getElem?_setWeight, h.weights]⟩

private theorem knows_start (variableCount clauseCount : Nat) :
    Knows (.start .detect variableCount clauseCount #[]) variableCount (WeightLines.format [])
      (WeightLines.given []) := by
  refine ⟨fun e he => ?_, rfl, rfl, fun l => ?_⟩
  · have hlog : Event.formulaNotRead e = .headerRead variableCount clauseCount := List.mem_singleton.mp he
    cases hlog
  · exact Std.TreeMap.getElem?_emptyc

private theorem knows_settle (h : Knows r variableCount format given) (found : WeightFormat) :
    ∃ r', settle found r = .ok () r' ∧ Knows r' variableCount found given :=
  ⟨_, settle_eq_ok.mpr rfl, h.push fun _ => by nofun, h.variableCount, rfl, h.weights⟩

private theorem knows_meetWeightLine {ws : WeightLines} (h : Knows r variableCount ws.format given) :
    ∃ r', meetWeightLine r = .ok () r' ∧
      Knows r' variableCount (.afterLines ws.hasNegative ws.hasMissing) given := by
  obtain ⟨stream, format, formula, log⟩ := r
  obtain ⟨haccepted, hcount, hformat, hweights⟩ := h
  dsimp only at hformat
  by_cases hws : ws = []
  · subst hws
    subst hformat
    exact ⟨_, rfl, haccepted, hcount, rfl, hweights⟩
  · rw [WeightLines.format, if_neg hws] at hformat
    have hkeep : meetWeightLine (⟨stream, format, formula, log⟩ : Reader σ) =
        .ok () ⟨stream, format, formula, log⟩ := by
      rw [hformat, WeightFormat.afterLines]
      cases ws.hasNegative <;> cases ws.hasMissing <;> rfl
    exact ⟨_, hkeep, haccepted, hcount, hformat, hweights⟩

section AfterLines
variable {negative missing : Bool} (h : Knows r variableCount (.afterLines negative missing) given)
include h

private theorem knows_meetLiteral (hconflict : (negative && missing) = false) (l : Literal) :
    ((missing && !l.positive) = false → ∃ r', meetLiteral l r = .ok () r' ∧
      Knows r' variableCount (.afterLines (negative || !l.positive) missing) given) ∧
    ((missing && !l.positive) = true → ∃ cause r', meetLiteral l r = .error (.error cause) r') := by
  obtain ⟨stream, format, formula, log⟩ := r
  have hformat : format = .afterLines negative missing := h.format
  subst hformat
  obtain ⟨v, positive⟩ := l
  dsimp only
  cases positive with
  | true =>
    rw [Bool.not_true, Bool.and_false, Bool.or_false]
    exact ⟨fun _ => ⟨_, rfl, h⟩, nofun⟩
  | false =>
    rw [Bool.not_false, Bool.and_true, Bool.or_true]
    cases missing with
    | true =>
      rw [Bool.and_true] at hconflict
      subst hconflict
      exact ⟨nofun, fun _ => ⟨_, _, rfl⟩⟩
    | false =>
      refine ⟨fun _ => ?_, nofun⟩
      cases negative with
      | true => exact ⟨_, rfl, h⟩
      | false => exact knows_settle h .mc20

private theorem knows_meetNoWeight :
    (negative = false → ∃ r', meetNoWeight r = .ok () r' ∧ Knows r' variableCount (.afterLines false true) given) ∧
    (negative = true → ∃ cause r', meetNoWeight r = .error (.error cause) r') := by
  obtain ⟨stream, format, formula, log⟩ := r
  have hformat : format = .afterLines negative missing := h.format
  subst hformat
  cases negative with
  | true => exact ⟨nofun, fun _ => ⟨_, _, rfl⟩⟩
  | false =>
    refine ⟨fun _ => ?_, nofun⟩
    cases missing with
    | true => exact ⟨_, rfl, h⟩
    | false => exact knows_settle h .cachet

end AfterLines

private theorem knows_recordWeight (h : Knows r variableCount format given) (l : Literal) {token : List Char}
    (htoken : token ≠ "-1".toList) : ∃ r', recordWeight l token r = .ok () r' ∧
      Knows r' variableCount format fun k => (given k).or (if l = k then some (tokenWeight token) else none) := by
  rw [tokenWeight, if_neg htoken]
  unfold recordWeight
  cases Weight.read token with
  | ok w => exact ⟨_, rfl, h.setWeight l w⟩
  | error e =>
    have hreport : Knows { r with log := r.log.push (.weightNotRead e) } variableCount format given :=
      ⟨h.push fun _ => by nofun, h.variableCount, h.format, h.weights⟩
    exact ⟨_, rfl, hreport.setWeight l .invalid⟩

/-- A weight line is refused if it is in conflict with those before it, and counts as one more otherwise. -/
private theorem knows_entry {ws : WeightLines} (h : Knows r variableCount ws.format ws.given)
    (hws : ws.conflict = false)
    (l : Literal) (token : List Char) :
    (WeightLines.conflict (ws ++ [(l, token)]) = false → ∃ r', entry (.weight l token) r = .ok () r' ∧
      Knows r' variableCount (WeightLines.format (ws ++ [(l, token)])) (WeightLines.given (ws ++ [(l, token)]))) ∧
    (WeightLines.conflict (ws ++ [(l, token)]) = true →
      ∃ cause r', entry (.weight l token) r = .error (.error cause) r') := by
  obtain ⟨r₁, hmeet, h₁⟩ := knows_meetWeightLine h
  obtain ⟨hpassed, hrefused⟩ := knows_meetLiteral h₁ hws l
  rw [entry, run_bind_of_ok hmeet, WeightLines.conflict, hasNegative_concat, hasMissing_concat, format_concat]
  rw [WeightLines.conflict] at hws
  -- the literal is met before its token, and the line can be refused for either
  cases hliteral : (ws.hasMissing && !l.positive) with
  | true =>
    obtain ⟨cause, r₂, hrun⟩ := hrefused hliteral
    rw [run_bind_of_error hrun]
    rw [Bool.and_eq_true] at hliteral
    rw [hliteral.1, hliteral.2, Bool.or_true, Bool.true_or]
    exact ⟨nofun, fun _ => ⟨cause, r₂, rfl⟩⟩
  | false =>
    obtain ⟨r₂, hrun, h₂⟩ := hpassed hliteral
    rw [run_bind_of_ok hrun]
    by_cases htoken : token = "-1".toList
    · obtain ⟨hsettled, hrefused⟩ := knows_meetNoWeight h₂
      rw [if_pos htoken, decide_eq_true htoken, Bool.or_true, Bool.and_true]
      cases hnegative : (ws.hasNegative || !l.positive) with
      | true =>
        obtain ⟨cause, r₃, hrun⟩ := hrefused hnegative
        rw [run_bind_of_error hrun]
        exact ⟨nofun, fun _ => ⟨cause, r₃, rfl⟩⟩
      | false =>
        obtain ⟨r₃, hrun, h₃⟩ := hsettled hnegative
        rw [run_bind_of_ok hrun]
        refine ⟨fun _ => ⟨_, rfl, ?_⟩, nofun⟩
        rw [funext (given_concat_missing htoken)]
        exact (h₃.setWeight l .one).setWeight (-l) .one
    · obtain ⟨r₃, hrun, h₃⟩ := knows_recordWeight h₂ l htoken
      have hpass : ((ws.hasNegative || !l.positive) && ws.hasMissing) = false := by
        rw [Bool.and_or_distrib_right, hws, Bool.false_or, Bool.and_comm, hliteral]
      rw [if_neg htoken, decide_eq_false htoken, Bool.or_false, hrun, hpass, funext (given_concat_of_ne htoken)]
      exact ⟨fun _ => ⟨r₃, rfl, h₃⟩, nofun⟩

private theorem knows_entries {es : List Entry} {ws : WeightLines} (h : Knows r variableCount ws.format ws.given)
    (hws : ws.conflict = false) :
    (WeightLines.conflict (ws ++ .ofEntries es) = false → ∃ r', entries es r = .ok () r' ∧
      Knows r' variableCount (WeightLines.format (ws ++ .ofEntries es)) (WeightLines.given (ws ++ .ofEntries es))) ∧
    (WeightLines.conflict (ws ++ .ofEntries es) = true → ∃ cause r', entries es r = .error (.error cause) r') := by
  induction es generalizing ws r with
  | nil =>
    have hnil : ws ++ ofEntries [] = ws := List.append_nil ws
    rw [hnil, hws]
    exact ⟨fun _ => ⟨r, rfl, h⟩, nofun⟩
  | cons e es ih =>
    rw [entries_cons]
    cases e with
    | kept text =>
      have hkept : Knows { r with formula := r.formula.addLine (.raw text) } variableCount ws.format ws.given :=
        ⟨h.accepted, h.variableCount, h.format, h.weights⟩
      exact ih hkept hws
    | support vs =>
      have hkept : Knows { r with formula := vs.foldl Formula.addSupport r.formula } variableCount ws.format
          ws.given := by
        rw [Formula.foldl_addSupport]
        exact ⟨h.accepted, h.variableCount, h.format, h.weights⟩
      exact ih hkept hws
    | weight l token =>
      obtain ⟨hpassed, hrefused⟩ := knows_entry h hws l token
      have hcons : ws ++ ofEntries (.weight l token :: es) = ws ++ [(l, token)] ++ ofEntries es :=
        (List.append_assoc ws [(l, token)] _).symm
      rw [hcons]
      cases hconflict : WeightLines.conflict (ws ++ [(l, token)]) with
      | true =>
        obtain ⟨cause, r', hrun⟩ := hrefused hconflict
        rw [conflict_append hconflict, run_bind_of_error hrun]
        exact ⟨nofun, fun _ => ⟨cause, r', rfl⟩⟩
      | false =>
        obtain ⟨r', hrun, h'⟩ := hpassed hconflict
        rw [run_bind_of_ok hrun]
        exact ih h' hconflict

private theorem knows_complete {ws : WeightLines} (h : Knows r variableCount .cachet ws.given) :
    (variableCount ≤ Variable.limit → ∃ r', complete r = .ok () r' ∧ Knows r' variableCount .cachet fun l =>
      if l.var.number ≤ variableCount then some (completedWeight ws.given l) else ws.given l) ∧
    (Variable.limit < variableCount → ∃ cause r', complete r = .error (.fault cause) r') := by
  obtain ⟨haccepted, rfl, hformat, hweights⟩ := h
  constructor
  · intro hlimit
    obtain ⟨g, hg⟩ := Formula.exists_completeAllWeights hlimit fun v w hw =>
      isUnsigned_given ((hweights _).symm.trans hw)
    have hcount := congrArg Formula.variableCount (Formula.completeAllWeights_eq hg)
    refine ⟨_, complete_eq_ok.mpr ⟨g, hg, rfl⟩, haccepted, hcount, hformat, fun l => ?_⟩
    rw [Formula.weights_completeAllWeights hg, funext hweights]
  · intro hlimit
    have hfirst : Variable.first r.formula.variableCount = .error (.noSuchVariable (Variable.limit + 1)) :=
      dif_neg (Nat.not_le.mpr hlimit)
    have hfault : r.formula.completeAllWeights = .error (.noSuchVariable (Variable.limit + 1)) := by
      rw [Formula.completeAllWeights, hfirst]
      rfl
    have hcomplete : complete r = (assume r.formula.completeAllWeights >>= fun f => onFormula fun _ => f) r := rfl
    rw [hcomplete, hfault]
    exact ⟨_, r, rfl⟩

/-- At the end, weights are completed if there are weight lines and all of them are for positive literals. -/
private theorem knows_finish {ws : WeightLines} (h : Knows r variableCount ws.format ws.given) :
    ((ws.finalFormat = .cachet → variableCount ≤ Variable.limit) →
      ∃ r', finish r = .ok () r' ∧ Knows r' variableCount ws.finalFormat (ws.finalGiven variableCount)) ∧
    (ws.finalFormat = .cachet → Variable.limit < variableCount → ∃ cause r', finish r = .error (.fault cause) r') := by
  obtain ⟨stream, format, formula, log⟩ := r
  have hstart : format = ws.format := h.format
  subst hstart
  rcases ws.format_cases with ⟨hfinal, hformat⟩ | ⟨hfinal, hformat, hknown⟩
  · have hgiven : ws.finalGiven variableCount = fun l =>
        if l.var.number ≤ variableCount then some (completedWeight ws.given l) else ws.given l := by
      funext l
      simp only [finalGiven, hfinal, true_and]
    obtain ⟨r', hrun, h'⟩ : ∃ r', finish ⟨stream, ws.format, formula, log⟩ = complete r' ∧
        Knows r' variableCount .cachet ws.given := by
      rcases hformat with hformat | hformat <;> rw [hformat] at h ⊢
      · exact ⟨_, rfl, h⟩
      · obtain ⟨r', hsettle, h'⟩ := knows_settle h .cachet
        exact ⟨r', run_bind_of_ok (f := fun _ => complete) hsettle, h'⟩
    obtain ⟨hcompleted, hfault⟩ := knows_complete h'
    rw [hrun, hfinal, hgiven]
    exact ⟨fun hlimit => hcompleted (hlimit rfl), fun _ => hfault⟩
  · have hgiven : ws.finalGiven variableCount = ws.given := by
      funext l
      rw [finalGiven, if_neg fun hl => hfinal hl.1]
    rw [hgiven, ← hformat]
    refine ⟨fun _ => ⟨_, ?_, h⟩, fun hcachet => absurd (hformat ▸ hcachet) hfinal⟩
    rcases hknown with hknown | hknown <;> rw [hknown] <;> rfl

end Reading

def Log.Refuses (log : Log) : Prop :=
  ∃ e, .formulaNotRead e ∈ log.toList

namespace Formula
open WeightLines

section Files
variable {source : Source} {variableCount clauseCount : Nat} {es : List Entry} (hending : source.ending = .endOfInput)
  (hfile : FileAt source.content variableCount clauseCount es)
include hending hfile

/-- A file whose weight lines are in conflict is refused. -/
theorem parse_of_conflict (hconflict : (WeightLines.ofEntries es).conflict = true) :
    ∃ f log, parse source .detect #[] = .ok f log ∧ log.Refuses := by
  obtain ⟨cause, d, hrun⟩ := (Reading.knows_entries (Reading.knows_start _ clauseCount) rfl).2 hconflict
  obtain ⟨f, log, e, hread, -⟩ := readFrom_of_refused hfile hrun
  rw [parse_eq_readFrom hending, hread]
  exact ⟨f, _, rfl, e, by simp⟩

/-- Any other file is accepted, unless completing the weights asks for variables that do not exist. -/
theorem parse_of_entries (hconflict : (WeightLines.ofEntries es).conflict = false) :
    (((WeightLines.ofEntries es).finalFormat = .cachet → variableCount ≤ Variable.limit) →
      ∃ f log, parse source .detect #[] = .ok f log ∧ ¬ log.Refuses ∧
        f.format = (WeightLines.ofEntries es).finalFormat ∧
        ∀ l, f.weight l = ((WeightLines.ofEntries es).finalGiven variableCount l).getD .one) ∧
    ((WeightLines.ofEntries es).finalFormat = .cachet → Variable.limit < variableCount →
      ∃ cause log, parse source .detect #[] = .error cause log) := by
  obtain ⟨d, hrun, hd⟩ := (Reading.knows_entries (Reading.knows_start _ clauseCount) rfl).1 hconflict
  obtain ⟨hfinished, hfault⟩ := Reading.knows_finish hd
  rw [List.nil_append] at hfinished hfault
  rw [parse_eq_readFrom hending, readFrom_of_entries hfile hrun]
  constructor
  · intro hlimit
    obtain ⟨r, hfinish, hr⟩ := hfinished hlimit
    rw [hfinish]
    refine ⟨_, _, rfl, fun ⟨e, he⟩ => hr.accepted e he, hr.format, fun l => ?_⟩
    rw [weight]
    exact congrArg (Option.getD · Weight.one) (hr.weights l)
  · intro hfinal hlimit
    obtain ⟨cause, r, hfinish⟩ := hfault hfinal hlimit
    rw [hfinish]
    exact ⟨cause, r.log, rfl⟩

/-- A file is refused if one of its weight lines has a negative literal and one stands for no weight. Otherwise its
format follows from whether there are weight lines and whether one has a negative literal. Neither depends on the order
of the weight lines, and if no literal has two of them, the weights do not depend on it either. The only precondition
that such a file can break is that weights are completed for variables that exist. -/
theorem parse_weightLines :
    ((∃ f log, parse source .detect #[] = .ok f log) ↔
      ((WeightLines.ofEntries es).finalFormat = .cachet → variableCount ≤ Variable.limit)) ∧
    ∀ f log, parse source .detect #[] = .ok f log →
      (log.Refuses ↔ (WeightLines.ofEntries es).hasNegative = true ∧ (WeightLines.ofEntries es).hasMissing = true) ∧
      (¬ log.Refuses → f.format = (WeightLines.ofEntries es).finalFormat) ∧
      ∀ source' es', source'.ending = .endOfInput → FileAt source'.content variableCount clauseCount es' →
        (WeightLines.ofEntries es').Perm (WeightLines.ofEntries es) →
        ∃ f' log', parse source' .detect #[] = .ok f' log' ∧ (log'.Refuses ↔ log.Refuses) ∧
          (¬ log.Refuses → ((WeightLines.ofEntries es).map Prod.fst).Nodup →
            f'.format = f.format ∧ ∀ l, f'.weight l = f.weight l) := by
  have hboth : (WeightLines.ofEntries es).conflict = true ↔
      (WeightLines.ofEntries es).hasNegative = true ∧ (WeightLines.ofEntries es).hasMissing = true := by
    rw [WeightLines.conflict, Bool.and_eq_true]
  rw [← hboth]
  cases hconflict : (WeightLines.ofEntries es).conflict with
  | true =>
    obtain ⟨f, log, hparse, hrefuses⟩ := parse_of_conflict hending hfile hconflict
    refine ⟨iff_of_true ⟨f, log, hparse⟩ fun h => absurd h (finalFormat_of_conflict hconflict),
      fun f₁ log₁ hparse₁ => ?_⟩
    cases hparse.symm.trans hparse₁
    refine ⟨iff_of_true hrefuses rfl, fun hnot => absurd hrefuses hnot, fun source' es' hending' hfile' hperm => ?_⟩
    obtain ⟨f', log', hparse', hrefuses'⟩ := parse_of_conflict hending' hfile' ((conflict_congr hperm).trans hconflict)
    exact ⟨f', log', hparse', iff_of_true hrefuses' hrefuses, fun hnot => absurd hrefuses hnot⟩
  | false =>
    obtain ⟨hread, hfault⟩ := parse_of_entries hending hfile hconflict
    have hexists : (∃ f log, parse source .detect #[] = .ok f log) ↔
        ((WeightLines.ofEntries es).finalFormat = .cachet → variableCount ≤ Variable.limit) := by
      refine ⟨fun ⟨f, log, hparse⟩ hfinal => ?_, fun hlimit => ?_⟩
      · by_contra hlimit
        obtain ⟨cause, log', hparse'⟩ := hfault hfinal (Nat.not_le.mp hlimit)
        cases hparse.symm.trans hparse'
      · obtain ⟨f, log, hparse, -⟩ := hread hlimit
        exact ⟨f, log, hparse⟩
    refine ⟨hexists, fun f log hparse => ?_⟩
    have hlimit := hexists.mp ⟨f, log, hparse⟩
    obtain ⟨f₁, log₁, hparse₁, haccepted, hformat, hweight⟩ := hread hlimit
    cases hparse.symm.trans hparse₁
    refine ⟨iff_of_false haccepted Bool.false_ne_true, fun _ => hformat, fun source' es' hending' hfile' hperm => ?_⟩
    have hfinal := finalFormat_congr hperm
    obtain ⟨f', log', hparse', haccepted', hformat', hweight'⟩ :=
      (parse_of_entries hending' hfile' ((conflict_congr hperm).trans hconflict)).1 fun h => hlimit (hfinal ▸ h)
    refine ⟨f', log', hparse', iff_of_false haccepted' haccepted, fun _ hnodup => ⟨?_, fun l => ?_⟩⟩
    · rw [hformat', hformat, hfinal]
    · rw [hweight', hweight, finalGiven, finalGiven, hfinal, given_congr hperm.symm hconflict hnodup]

end Files

def thirdAndHalf : WeightLines :=
  [(⟨.one, true⟩, "1/3".toList), (⟨.one, false⟩, "1/2".toList)]

def thirdFirst : Source :=
  { content := encode "p cnf 1 0\nw 1 1/3\nw -1 1/2\n".toList }

def halfFirst : Source :=
  { content := encode "p cnf 1 0\nw -1 1/2\nw 1 1/3\n".toList }

theorem parse_weightLines_swapped :
    ∃ f log f' log', parse thirdFirst .detect #[] = .ok f log ∧ parse halfFirst .detect #[] = .ok f' log' ∧
      ¬ log.Refuses ∧ ¬ log'.Refuses ∧ f.format = .mc20 ∧ f'.format = .mc20 ∧ ∀ l, f'.weight l = f.weight l := by
  have hfile (ws : WeightLines) (hws : ∀ w ∈ ws, w ∈ thirdAndHalf) :
      FileAt (encode ("p cnf 1 0".toList ++ '\n' :: unlines ws.lines)) 1 0 (ws.map fun w => .weight w.1 w.2) := by
    have hfits : ∀ w ∈ thirdAndHalf, w.1.var.number ≤ 1 ∧ w.2 ≠ [] ∧ w.2.all (Text.isBlank · == false) = true := by
      decide
    exact fileAt_lines (f := .ofCounts 1 0) (by decide) (by decide) fun w hw =>
      have ⟨hnumber, hne, hblank⟩ := hfits w (hws w hw)
      ⟨hnumber, Text.isWord_of_all hne hblank⟩
  obtain ⟨hread, hlaw⟩ := parse_weightLines (rfl : thirdFirst.ending = .endOfInput) (hfile thirdAndHalf fun _ => id)
  obtain ⟨f, log, hparse⟩ := hread.mpr nofun
  obtain ⟨hrefuses, hformat, hpermuted⟩ := hlaw f log hparse
  have haccepted : ¬ log.Refuses := by
    rw [hrefuses]
    decide
  obtain ⟨f', log', hparse', hrefuses', hweights⟩ :=
    hpermuted halfFirst _ rfl (hfile thirdAndHalf.reverse fun _ => List.mem_reverse.mp) (by decide)
  obtain ⟨hformat', hweight⟩ := hweights haccepted (by decide)
  exact ⟨f, log, f', log', hparse, hparse', haccepted, fun h => haccepted (hrefuses'.mp h), hformat haccepted,
    hformat'.trans (hformat haccepted), hweight⟩

def beyondSource : Source :=
  { content := encode "p cnf 268435457 0\nw -268435457 1/2\n".toList }

/-- Reading breaks a precondition here, although no weight line stands for no weight. -/
theorem parse_weightLines_beyond :
    ∃ log, parse beyondSource .detect #[] = .error (.noSuchVariable (-268435457)) log := by
  rw [parse_eq_readFrom rfl]
  exact exists_of_failsWith (by decide +kernel)

end Formula
end WeightedCnf

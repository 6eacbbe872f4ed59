import WeightedCnf.Proofs.AcceptedTexts
import WeightedCnf.Proofs.WeightOrder

/-! What the items of a text make of the weights: the first item that gives one to a literal decides. Which items can
give weights depends on the format that the text turns out to have. -/
namespace WeightedCnf
open WeightLines (tokenWeight)

namespace Item

def gives : Item → Literal → Option Weight
  | entry (.weight k token), l => WeightLines.given [(k, token)] l
  | weights tokens, l => tokens[l.code]?.map Weight.ofToken
  | _, _ => none

def Fits (format : WeightFormat) : Item → Prop
  | entry (.weight l _) => format.hasLists = false ∧ (l.positive = false → format = .mc20)
  | weights _ => format = .minic2d
  | _ => True

theorem Fits.of_leads {format format' : WeightFormat} {i : Item} (h : i.Fits format) (hleads : format.Leads format') :
    i.Fits format' := by
  cases i with
  | header => trivial
  | entry e =>
    cases e with
    | kept | support => trivial
    | weight l token =>
      refine ⟨Reading.hasLists_of_leads hleads h.1, fun hl => ?_⟩
      have hformat := h.2 hl
      subst hformat
      exact hleads.eq nofun
  | weights tokens =>
    have hformat : format = .minic2d := h
    subst hformat
    exact hleads.eq nofun

end Item

namespace Reading
variable {σ : Type} {r r' : Reader σ} {u : Unit} {input : List UInt8} {is : List Item}

private theorem listed_cons {α : Type} (start code : Nat) (a b : α) (xs : List α) :
    (if 2 * start ≤ code then (a :: b :: xs)[code - 2 * start]? else none) =
      ((if code = 2 * start then some a else none).or (if code = 2 * start + 1 then some b else none)).or
        (if 2 * (start + 1) ≤ code then xs[code - 2 * (start + 1)]? else none) := by
  rcases Nat.lt_or_ge code (2 * start) with hlt | hge
  · rw [if_neg (by omega), if_neg (by omega), if_neg (by omega), if_neg (by omega)]
    rfl
  · obtain ⟨k, rfl⟩ := Nat.exists_eq_add_of_le hge
    match k with
    | 0 => simp
    | 1 => simp
    | k + 2 =>
      rw [if_pos (by omega), if_neg (by omega), if_neg (by omega), if_pos (by omega),
        show 2 * start + (k + 2) - 2 * start = k + 2 by omega, show 2 * start + (k + 2) - 2 * (start + 1) = k by omega]
      rfl

private theorem weights_recordWeight {k : Literal} {token : List Char} (h : recordWeight k token r = .ok u r')
    (l : Literal) :
    r'.formula.weights[l]? = (r.formula.weights[l]?).or (if k = l then some (.ofToken token) else none) := by
  obtain ⟨log, hrun⟩ := recordWeight_eq k token r
  cases hrun.symm.trans h
  exact Formula.getElem?_setWeight r.formula k (.ofToken token) l

private theorem weights_recordWeights {start count : Nat} {tokens : List (List Char)}
    (h : recordWeights (start + 1) tokens r = .ok u r') (hlength : tokens.length = 2 * count) (l : Literal) :
    r'.formula.weights[l]? = (r.formula.weights[l]?).or
      (Option.map Weight.ofToken (if 2 * start ≤ l.code then tokens[l.code - 2 * start]? else none)) := by
  induction count generalizing start tokens r with
  | zero =>
    cases List.length_eq_zero_iff.mp hlength
    cases h
    simp
  | succ count ih =>
    obtain ⟨positive, negative, tokens, rfl⟩ : ∃ positive negative tokens', tokens = positive :: negative :: tokens' := by
      match tokens, hlength with
      | positive :: negative :: tokens, _ => exact ⟨positive, negative, tokens, rfl⟩
    obtain ⟨v, r₁, r₂, hv, hpositive, hnegative, h⟩ := recordWeights_eq_ok.mp h
    have hindex : v.index = start := Nat.succ_injective (Variable.number_of_ofNumber hv)
    subst hindex
    have hfirst : v.positive = l ↔ l.code = 2 * v.index :=
      ⟨fun he => he ▸ rfl, fun he => (Literal.code_injective (k := v.positive) he).symm⟩
    have hsecond : v.negative = l ↔ l.code = 2 * v.index + 1 :=
      ⟨fun he => he ▸ rfl, fun he => (Literal.code_injective (k := v.negative) he).symm⟩
    rw [List.length_cons, List.length_cons] at hlength
    rw [ih h (by omega), weights_recordWeight hnegative, weights_recordWeight hpositive, listed_cons]
    simp only [hfirst, hsecond, Option.or_assoc, Option.map_or, apply_ite (Option.map Weight.ofToken), Option.map_some,
      Option.map_none]

/-- The first one of some items that gives a weight to a literal decides. -/
private theorem weights_perform {i : Item} (hi : ∀ tokens, i = .weights tokens → 2 ∣ tokens.length)
    (h : perform i r = .ok u r') (l : Literal) :
    r'.formula.weights[l]? = (r.formula.weights[l]?).or (i.gives l) := by
  cases i with
  | header variableCount clauseCount =>
    cases h
    exact Option.or_none.symm
  | entry e =>
    cases e with
    | kept text =>
      cases h
      exact Option.or_none.symm
    | support vs =>
      cases h
      have hkept := congrArg Formula.weights (Formula.foldl_addSupport vs r.formula)
      change _ = (r.formula.weights[l]?).or none
      rw [Option.or_none]
      exact congrArg (·[l]?) hkept
    | weight k token =>
      obtain ⟨r₁, r₂, hmeet, hliteral, h⟩ := entry_weight_of_ok h
      have hsame := congrArg Formula.weights (formula_meetLiteral hliteral)
      rw [formula_meetWeightLine hmeet] at hsame
      change _ = (r.formula.weights[l]?).or (WeightLines.given ([] ++ [(k, token)]) l)
      rcases h with ⟨htoken, r₃, hnone, rfl⟩ | ⟨htoken, log, rfl⟩
      · have hsame' := (congrArg Formula.weights (formula_meetNoWeight hnone)).trans hsame
        rw [WeightLines.given_concat_missing htoken, ← hsame']
        dsimp only
        rw [Formula.getElem?_setWeight, Formula.getElem?_setWeight, Option.or_assoc]
        rfl
      · rw [WeightLines.given_concat_of_ne htoken, WeightLines.tokenWeight, if_neg htoken, ← hsame]
        dsimp only
        rw [Formula.getElem?_setWeight]
        rfl
  | weights tokens =>
    obtain ⟨_, r₁, hmeet, h⟩ := run_bind_eq_ok.mp h
    obtain ⟨count, hcount⟩ := hi tokens rfl
    have hsame : r₁.formula.weights = r.formula.weights := by
      unfold meetWeights at hmeet
      obtain ⟨_, _, hget, hmeet⟩ := run_bind_eq_ok.mp hmeet
      cases hget
      split at hmeet <;> cases hmeet <;> rfl
    rw [weights_recordWeights h hcount, hsame, if_pos (Nat.zero_le _)]
    rfl

private theorem leads_perform {i : Item} (h : perform i r = .ok u r') : r.format.Leads r'.format := by
  cases i with
  | header variableCount clauseCount =>
    cases h
    exact .refl
  | entry e =>
    cases e with
    | kept text =>
      cases h
      exact .refl
    | support vs =>
      cases h
      exact .refl
    | weight l token =>
      obtain ⟨r₁, r₂, hmeet, hliteral, hleads⟩ := entry_weight_leads h
      have hmet := ((leads_meetWeightLine r).of_ok hmeet).trans ((leads_meetLiteral l r₁).of_ok hliteral)
      exact hmet.trans hleads
  | weights tokens =>
    obtain ⟨_, r₁, hmeet, h⟩ := run_bind_eq_ok.mp h
    rw [(recordWeights_of_ok h).1]
    obtain ⟨stream, format, formula, log⟩ := r
    cases format with
    | detect =>
      cases hmeet
      exact .single .weightList
    | _ =>
      cases hmeet
      exact .refl

/-- An item that is not refused can stand in a text of the format that is known then. -/
private theorem fits_perform {i : Item} (hi : ∀ tokens, i = .weights tokens → r.format.hasLists = true)
    (h : perform i r = .ok u r') : i.Fits r'.format := by
  cases i with
  | header => trivial
  | entry e =>
    cases e with
    | kept | support => trivial
    | weight l token =>
      refine ⟨congrArg Context.lists (context_perform h), fun hl => ?_⟩
      obtain ⟨r₁, r₂, hmeet, hliteral, hleads⟩ := entry_weight_leads h
      have hknown := hasLists_meetWeightLine hmeet
      have hsettled : r₂.format = .mc20 := by
        obtain ⟨v, positive⟩ := l
        dsimp only at hl
        subst hl
        obtain ⟨stream, format, formula, log⟩ := r₁
        cases format with
        | detect | minic2d => cases hknown
        | cachet => cases hliteral
        | cachetOrMc20 | mc20 =>
          cases hliteral
          rfl
      rw [hsettled] at hleads
      exact hleads.eq nofun
  | weights tokens =>
    obtain ⟨_, r₁, hmeet, h⟩ := run_bind_eq_ok.mp h
    have hknown := hi tokens rfl
    change r'.format = .minic2d
    rw [(recordWeights_of_ok h).1]
    obtain ⟨stream, format, formula, log⟩ := r
    cases format with
    | detect | minic2d =>
      cases hmeet
      rfl
    | _ => cases hknown

/-- What is known after items that were not refused. -/
structure Performs (is : List Item) (r r' : Reader σ) : Prop where
  leads : r.format.Leads r'.format
  fits : ∀ i ∈ is, i.Fits r'.format
  context : r'.context = is.foldl Context.after r.context
  weights : ∀ l, r'.formula.weights[l]? = (r.formula.weights[l]?).or (is.findSome? (·.gives l))

theorem performs_items (his : ItemsAt r.context input is) (h : items is r = .ok u r') : Performs is r r' := by
  generalize hc : r.context = c at his
  induction his generalizing r with
  | nil =>
    cases h
    exact ⟨.refl, fun i hi => (nomatch hi), rfl, fun l => Option.or_none.symm⟩
  | @cons c gap input i rest is _ hi _ ih =>
    subst hc
    obtain ⟨_, r₁, hperform, h⟩ := run_bind_eq_ok.mp h
    have hcontext := context_perform hperform
    have hrest := ih h hcontext
    have hlist (tokens : List (List Char)) (he : i = .weights tokens) :
        r.format.hasLists = true ∧ 2 ∣ tokens.length := by
      subst he
      cases hi with
      | weights hlists _ _ h => exact ⟨hlists, _, h.length_eq⟩
    refine ⟨(leads_perform hperform).trans hrest.leads, fun j hj => ?_, ?_, fun l => ?_⟩
    · rcases List.mem_cons.mp hj with rfl | hj
      · exact (fits_perform (fun tokens he => (hlist tokens he).1) hperform).of_leads hrest.leads
      · exact hrest.fits j hj
    · rw [hrest.context, hcontext, List.foldl_cons]
    · rw [hrest.weights, weights_perform (fun tokens he => (hlist tokens he).2) hperform, Option.or_assoc,
        List.findSome?_cons]
      cases i.gives l <;> rfl

/-- At its end, reading completes the weights or leaves all as it is. -/
theorem finish_of_ok (h : finish r = .ok u r') :
    (r' = r ∧ r.format ≠ .cachet) ∨ (r'.format = .cachet ∧ r.format.Leads .cachet ∧
      ∃ k : Formula, k.weights = r.formula.weights ∧ k.variableCount = r.formula.variableCount ∧
        k.completeAllWeights = .ok r'.formula) := by
  obtain ⟨stream, format, formula, log⟩ := r
  cases format with
  | cachet =>
    obtain ⟨g, hg, rfl⟩ := complete_eq_ok.mp (show complete _ = .ok u r' from h)
    exact .inr ⟨rfl, .refl, formula, rfl, rfl, hg⟩
  | cachetOrMc20 =>
    obtain ⟨_, r₁, hsettle, hcomplete⟩ :=
      run_bind_eq_ok.mp (show (settle .cachet >>= fun _ => complete) _ = .ok u r' from h)
    cases settle_eq_ok.mp hsettle
    obtain ⟨g, hg, rfl⟩ := complete_eq_ok.mp hcomplete
    exact .inr ⟨rfl, .single .missingWeight, formula.addLine WeightFormat.cachet.note, rfl, rfl, hg⟩
  | _ =>
    cases h
    exact .inl ⟨rfl, nofun⟩

end Reading
end WeightedCnf

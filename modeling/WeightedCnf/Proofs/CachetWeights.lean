import WeightedCnf.Proofs.ItemWeights

/-! The weights of a formula whose weights were completed: the weight lines of a variable decide both weights, the first
of them alone unless a later one stands for no weight. -/
namespace WeightedCnf
open WeightLines (tokenWeight)

def Item.tokenOf? (v : Variable) : Item → Option (List Char)
  | entry (.weight l token) => if l.var = v then some token else none
  | _ => none

def weightTokens (v : Variable) (is : List Item) : List (List Char) :=
  is.filterMap (·.tokenOf? v)

section Given
variable {v : Variable} {i : Item} {is : List Item}

/-- Where weights are completed, no weight line has a negative literal, so a line gives a weight to its variable, and to
the negation only if it stands for no weight. -/
private theorem gives_eq (hi : i.Fits .cachet) (v : Variable) : i.gives v.positive = (i.tokenOf? v).map tokenWeight ∧
    i.gives v.negative = if i.tokenOf? v = some "-1".toList then some .one else none := by
  cases i with
  | header => exact ⟨rfl, rfl⟩
  | weights tokens => cases hi
  | entry e =>
    cases e with
    | kept | support => exact ⟨rfl, rfl⟩
    | weight l token =>
      obtain ⟨u, positive⟩ := l
      cases positive with
      | false => exact absurd (hi.2 rfl) nofun
      | true =>
        have hne : (⟨u, true⟩ : Literal) ≠ v.negative := fun h => nomatch congrArg Literal.positive h
        have hne' : -(⟨u, true⟩ : Literal) ≠ v.positive := fun h => nomatch congrArg Literal.positive h
        have heq : (⟨u, true⟩ : Literal) = v.positive ↔ u = v := ⟨congrArg Literal.var, fun h => h ▸ rfl⟩
        have heq' : -(⟨u, true⟩ : Literal) = v.negative ↔ u = v := ⟨congrArg Literal.var, fun h => h ▸ rfl⟩
        change WeightLines.given ([] ++ [(⟨u, true⟩, token)]) v.positive = (if u = v then some token else none).map _ ∧
          WeightLines.given ([] ++ [(⟨u, true⟩, token)]) v.negative =
            if (if u = v then some token else none) = some "-1".toList then some .one else none
        have hnone (k : Literal) : WeightLines.given [] k = none := rfl
        by_cases htoken : token = "-1".toList
        · rw [WeightLines.given_concat_missing htoken, WeightLines.given_concat_missing htoken, hnone, hnone, if_neg hne,
            if_neg hne']
          simp only [heq, heq', Option.none_or, Option.or_none]
          by_cases hu : u = v
          · rw [if_pos hu, if_pos hu, htoken]
            exact ⟨rfl, rfl⟩
          · rw [if_neg hu, if_neg hu]
            exact ⟨rfl, rfl⟩
        · rw [WeightLines.given_concat_of_ne htoken, WeightLines.given_concat_of_ne htoken, hnone, hnone, if_neg hne]
          simp only [heq, Option.none_or]
          by_cases hu : u = v
          · rw [if_pos hu, if_pos hu, if_neg fun h => htoken (Option.some.inj h)]
            exact ⟨rfl, rfl⟩
          · rw [if_neg hu, if_neg hu]
            exact ⟨rfl, rfl⟩

private theorem given_positive (his : ∀ i ∈ is, i.Fits .cachet) (v : Variable) :
    is.findSome? (·.gives v.positive) = (weightTokens v is).head?.map tokenWeight := by
  induction is with
  | nil => rfl
  | cons i is ih =>
    have hgives := (gives_eq (his i List.mem_cons_self) v).1
    have hrest := ih fun j hj => his j (List.mem_cons_of_mem i hj)
    rw [List.findSome?_cons, hgives, weightTokens, List.filterMap_cons]
    cases i.tokenOf? v with
    | none => exact hrest
    | some token => rfl

private theorem given_negative (his : ∀ i ∈ is, i.Fits .cachet) (v : Variable) :
    is.findSome? (·.gives v.negative) = if "-1".toList ∈ weightTokens v is then some .one else none := by
  induction is with
  | nil => rfl
  | cons i is ih =>
    have hgives := (gives_eq (his i List.mem_cons_self) v).2
    have hrest := ih fun j hj => his j (List.mem_cons_of_mem i hj)
    rw [List.findSome?_cons, hgives, hrest, weightTokens, weightTokens, List.filterMap_cons]
    cases i.tokenOf? v with
    | none => rfl
    | some token =>
      by_cases htoken : token = "-1".toList
      · rw [if_pos (congrArg some htoken), if_pos (List.mem_cons.mpr (.inl htoken.symm))]
      · rw [if_neg fun h => htoken (Option.some.inj h)]
        simp only [List.mem_cons, Ne.symm htoken, false_or]

end Given

namespace Formula
variable {source : Source} {format : WeightFormat} {f : Formula} {log : Log}

private theorem weight_of_completed {k : Formula} (hcomplete : k.completeAllWeights = .ok f) {v : Variable}
    (hv : v.number ≤ k.variableCount) {tokens : List (List Char)}
    (hpositive : k.weights[v.positive]? = tokens.head?.map tokenWeight)
    (hnegative : k.weights[v.negative]? = if "-1".toList ∈ tokens then some .one else none) :
    (tokens = [] → f.weight v.positive = .half ∧ f.weight v.negative = .half) ∧
    ∀ token later, tokens = token :: later → f.weight v.positive = tokenWeight token ∧
      ("-1".toList ∈ token :: later → f.weight v.negative = .one) ∧
      ("-1".toList ∉ token :: later → (tokenWeight token).complement = .ok (f.weight v.negative)) := by
  have hcompleted (l : Literal) (hl : l.var = v) : f.weight l =
      (k.weights[l]?).getD ((k.weights[v.positive]?).elim .half fun w => w.complement.toOption.getD .invalid) := by
    subst hl
    rw [weight, weights_completeAllWeights hcomplete, if_pos hv]
    rfl
  rw [hcompleted v.positive rfl, hcompleted v.negative rfl, hpositive, hnegative]
  refine ⟨fun hnil => ?_, fun token later htokens => ?_⟩
  · rw [hnil, if_neg List.not_mem_nil]
    exact ⟨rfl, rfl⟩
  · rw [htokens]
    refine ⟨rfl, fun hmissing => ?_, fun hweights => ?_⟩
    · rw [if_pos hmissing]
      rfl
    · rw [if_neg hweights]
      obtain ⟨w, hw⟩ := (WeightLines.isUnsigned_tokenWeight token).exists_complement
      dsimp only [List.head?_cons, Option.map_some, Option.elim_some]
      rw [hw]
      rfl

/-- Where weights were completed, the first weight line of a variable decides its weight, and that of its negation is
the complement, unless a line says that there is no weight: then it is one. Both weights are one half if there is no
line. So both are one or they add up to one if no line takes back the weight of an earlier one and they can be read. -/
theorem parse_cachet (hending : source.ending = .endOfInput) (hparse : parse source format #[] = .ok f log)
    (haccepted : ∀ e, .formulaNotRead e ∉ log.toList) (hformat : f.format = .cachet) :
    (∃ is, ItemsAt format.context source.content is) ∧
    ∀ is, ItemsAt format.context source.content is → ∀ v : Variable, v.number ≤ f.variableCount →
      (weightTokens v is = [] → f.weight v.positive = .half ∧ f.weight v.negative = .half) ∧
      (∀ token later, weightTokens v is = token :: later → f.weight v.positive = tokenWeight token ∧
        ("-1".toList ∈ token :: later → f.weight v.negative = .one) ∧
        ("-1".toList ∉ token :: later → (tokenWeight token).complement = .ok (f.weight v.negative))) ∧
      (("-1".toList ∈ weightTokens v is → (weightTokens v is).head? = some "-1".toList) →
        ∀ p q, (f.weight v.positive).toRat? = some p → (f.weight v.negative).toRat? = some q →
          f.weight v.positive = .one ∧ f.weight v.negative = .one ∨ p + q = 1) := by
  obtain ⟨hexists, hitems⟩ := parse_items hending hparse haccepted
  refine ⟨hexists, fun is his v hv => ?_⟩
  obtain ⟨d, d', hrun, hfinish, rfl, -⟩ := hitems is his
  have hperforms := Reading.performs_items (r := .atStart format) his hrun
  rcases Reading.finish_of_ok hfinish with ⟨rfl, hne⟩ | ⟨-, hleads, k, hweights, hcount, hcomplete⟩
  · exact absurd hformat hne
  have hfits (i : Item) (hi : i ∈ is) : i.Fits .cachet := (hperforms.fits i hi).of_leads hleads
  have hgiven (l : Literal) : k.weights[l]? = is.findSome? (·.gives l) := by
    rw [hweights, hperforms.weights]
    exact congrArg (Option.or · _) Std.TreeMap.getElem?_emptyc
  have hkept := congrArg variableCount (completeAllWeights_eq hcomplete)
  obtain ⟨hnone, hsome⟩ := weight_of_completed hcomplete (hkept ▸ hv) ((hgiven _).trans (given_positive hfits v))
    ((hgiven _).trans (given_negative hfits v))
  refine ⟨hnone, hsome, fun hfirst p q hp hq => ?_⟩
  change d'.formula.weight v.positive = .one ∧ d'.formula.weight v.negative = .one ∨ p + q = 1
  change (d'.formula.weight v.positive).toRat? = some p at hp
  change (d'.formula.weight v.negative).toRat? = some q at hq
  cases htokens : weightTokens v is with
  | nil =>
    obtain ⟨hpositive, hnegative⟩ := hnone htokens
    rw [hpositive] at hp
    rw [hnegative] at hq
    exact .inr (Weight.add_toRat?_complement (w := .half) rfl hp hq)
  | cons token later =>
    obtain ⟨hpositive, hmissing, hcomplement⟩ := hsome token later htokens
    rw [htokens] at hfirst
    by_cases hmem : "-1".toList ∈ token :: later
    · have htoken : token = "-1".toList := Option.some.inj (hfirst hmem)
      rw [hpositive, htoken]
      exact .inl ⟨rfl, hmissing hmem⟩
    · rw [hpositive] at hp
      exact .inr (Weight.add_toRat?_complement (hcomplement hmem) hp hq)

/-- A text with two weights for one variable, none for another one and a line that says so for the third one. -/
def pairsSource : Source :=
  { content := Text.Utf8.encode "p cnf 3 0\nw 1 0.3\nw 3 -1\nw 1 0.4\n".toList }

theorem parse_cachet_pairs : ∃ f log, parse pairsSource .detect #[] = .ok f log ∧ f.format = .cachet ∧
    (∃ is, ItemsAt WeightFormat.detect.context pairsSource.content is) ∧
    ∀ is, ItemsAt WeightFormat.detect.context pairsSource.content is →
      (weightTokens ⟨1, by decide⟩ is = [] → f.weight ⟨⟨1, by decide⟩, false⟩ = .half) ∧
      ∀ later, weightTokens ⟨0, by decide⟩ is = "0.3".toList :: later → f.weight ⟨⟨0, by decide⟩, true⟩ = ⟨3, 10⟩ := by
  obtain ⟨f, log, hparse, hformat, hcount, hlog⟩ := parse_of_reads (rfl : pairsSource.ending = .endOfInput) .detect
    (fun f log => f.format = .cachet ∧ f.variableCount = 3 ∧ log = #[.headerRead 3 0, .formatDetected .cachet])
    (by decide +kernel)
  obtain ⟨hexists, hweights⟩ := parse_cachet rfl hparse (by simp [hlog]) hformat
  have hfirst : (⟨0, by decide⟩ : Variable).number ≤ f.variableCount := by
    rw [hcount]
    decide
  have hsecond : (⟨1, by decide⟩ : Variable).number ≤ f.variableCount := by
    rw [hcount]
    decide
  refine ⟨f, log, hparse, hformat, hexists, fun is his => ⟨fun hnil => ?_, fun later htokens => ?_⟩⟩
  · exact ((hweights is his _ hsecond).1 hnil).2
  · exact ((hweights is his _ hfirst).2.1 _ later htokens).1.trans (by decide)

/-- A text with a weight for a variable and a later line that says that there is none. -/
def takenBackSource : Source :=
  { content := Text.Utf8.encode "p cnf 1 0\nw 1 0.3\nw 1 -1\n".toList }

/-- The later line takes back the complement, but not the weight: the two do not add up to one. -/
theorem parse_cachet_takenBack : ∃ f log, parse takenBackSource .detect #[] = .ok f log ∧
    (∀ e, .formulaNotRead e ∉ log.toList) ∧ f.format = .cachet ∧ f.weight Variable.one.positive = ⟨3, 10⟩ ∧
    f.weight Variable.one.negative = .one ∧ (⟨3, 10⟩ : Weight).complement = .ok ⟨7, 10⟩ := by
  obtain ⟨f, log, hparse, hlog, hformat, hpositive, hnegative⟩ := parse_of_reads
    (rfl : takenBackSource.ending = .endOfInput) .detect
    (fun f log => log = #[.headerRead 1 0, .formatDetected .cachet] ∧ f.format = .cachet ∧
      f.weight Variable.one.positive = ⟨3, 10⟩ ∧ f.weight Variable.one.negative = .one) (by decide +kernel)
  exact ⟨f, log, hparse, by simp [hlog], hformat, hpositive, hnegative, rfl⟩

end Formula
end WeightedCnf

import WeightedCnf.Proofs.ItemWeights

/-! The weights of a formula that lists them: each literal has the weight of its own token in the first list that is long
enough to have one. A list is as long as the header in front of it demands. -/
namespace WeightedCnf

def Item.listed? : Item → Option (List (List Char))
  | weights tokens => some tokens
  | _ => none

def weightLists (is : List Item) : List (List (List Char)) :=
  is.filterMap Item.listed?

def listedWeight? (tokens : List (List Char)) (l : Literal) : Option Weight :=
  tokens[l.code]?.map Weight.ofToken

private theorem code_lt (l : Literal) : l.code < 2 * l.var.number := by
  rw [Literal.code, Variable.number]
  split <;> omega

section Items
variable {c : Context} {input : List UInt8} {is : List Item} {i : Item}

private theorem gives_eq_listed (hi : i.Fits .minic2d) (l : Literal) :
    i.gives l = i.listed?.bind (listedWeight? · l) := by
  cases i with
  | header | weights => rfl
  | entry e =>
    cases e with
    | kept | support => rfl
    | weight => cases hi.1

private theorem given_listed (his : ∀ i ∈ is, i.Fits .minic2d) (l : Literal) :
    is.findSome? (·.gives l) = (weightLists is).findSome? (listedWeight? · l) := by
  induction is with
  | nil => rfl
  | cons i is ih =>
    have hrest := ih fun j hj => his j (List.mem_cons_of_mem i hj)
    rw [List.findSome?_cons, gives_eq_listed (his i List.mem_cons_self), hrest, weightLists, weightLists,
      List.filterMap_cons]
    cases i.listed? with
    | none => rfl
    | some tokens =>
      rw [Option.bind_some, List.findSome?_cons]

private theorem ItemsAt.itemAt {before after : List Item} (h : ItemsAt c input (before ++ i :: after)) :
    ∃ input' rest, ItemAt (before.foldl Context.after c) input' i rest := by
  induction before generalizing c input with
  | nil =>
    cases h with
    | cons _ hi _ => exact ⟨_, _, hi⟩
  | cons j before ih =>
    cases h with
    | cons _ _ his => exact ih his

/-- A bound on the number of variables holds behind items if it holds in front of them and for each header. -/
private theorem variableCount_foldl_after {bound : Nat} (hc : c.variableCount ≤ bound)
    (his : ∀ variableCount clauseCount, .header variableCount clauseCount ∈ is → variableCount ≤ bound) :
    (is.foldl Context.after c).variableCount ≤ bound := by
  induction is generalizing c with
  | nil => exact hc
  | cons i is ih =>
    refine ih ?_ fun variableCount clauseCount h => his variableCount clauseCount (List.mem_cons_of_mem i h)
    cases i with
    | header variableCount clauseCount => exact his variableCount clauseCount List.mem_cons_self
    | entry e => cases e <;> exact hc
    | weights tokens => exact hc

private theorem Reading.format_items {σ : Type} {r r' : Reader σ} {u : Unit} (h : items is r = .ok u r')
    (hfits : ∀ i ∈ is, i.Fits .minic2d) (hlists : weightLists is = []) : r'.format = r.format := by
  induction is generalizing r with
  | nil =>
    cases h
    rfl
  | cons i is ih =>
    obtain ⟨_, r₁, hperform, h⟩ := run_bind_eq_ok.mp h
    have hrest := fun hlists => ih h (fun j hj => hfits j (List.mem_cons_of_mem i hj)) hlists
    cases i with
    | header =>
      cases hperform
      exact hrest hlists
    | weights => cases hlists
    | entry e =>
      cases e with
      | kept | support =>
        cases hperform
        exact hrest hlists
      | weight => cases (hfits _ List.mem_cons_self).1

end Items

namespace Formula
variable {source : Source} {f : Formula} {log : Log}

/-- Where the format was found to be the one with lists, each literal has the weight of its own token in the first list
that is long enough. The first list has tokens for all literals of the variables announced before it, so none is lost if
no later header announces more variables. -/
theorem parse_listed (hending : source.ending = .endOfInput) (hparse : parse source .detect #[] = .ok f log)
    (haccepted : ∀ e, .formulaNotRead e ∉ log.toList) (hformat : f.format = .minic2d) :
    (∃ is, ItemsAt WeightFormat.detect.context source.content is) ∧
    ∀ is, ItemsAt WeightFormat.detect.context source.content is →
      (∀ l, f.weights[l]? = (weightLists is).findSome? (listedWeight? · l)) ∧
      ∃ before tokens after, is = before ++ .weights tokens :: after ∧ weightLists before = [] ∧
        tokens.length = 2 * (before.foldl Context.after WeightFormat.detect.context).variableCount ∧
        ((∀ variableCount clauseCount, .header variableCount clauseCount ∈ after → 2 * variableCount ≤ tokens.length) →
          ∀ l : Literal, l.var.number ≤ f.variableCount →
            ∃ token, tokens[l.code]? = some token ∧ f.weights[l]? = some (.ofToken token)) := by
  obtain ⟨hexists, hitems⟩ := parse_items hending hparse haccepted
  refine ⟨hexists, fun is his => ?_⟩
  obtain ⟨d, d', hrun, hfinish, rfl, -⟩ := hitems is his
  have hperforms := Reading.performs_items (r := .atStart .detect) his hrun
  have hd : d' = d := by
    rcases Reading.finish_of_ok hfinish with ⟨rfl, -⟩ | ⟨hcachet, -⟩
    · rfl
    · cases hformat.symm.trans hcachet
  subst hd
  have hfits (i : Item) (hi : i ∈ is) : i.Fits .minic2d := by
    have hi := hperforms.fits i hi
    change d'.format = .minic2d at hformat
    rwa [hformat] at hi
  have hweights (l : Literal) : d'.formula.weights[l]? = (weightLists is).findSome? (listedWeight? · l) := by
    rw [hperforms.weights, ← given_listed hfits]
    exact congrArg (Option.or · _) Std.TreeMap.getElem?_emptyc
  refine ⟨hweights, ?_⟩
  cases hlists : weightLists is with
  | nil =>
    have hsame := Reading.format_items hrun hfits hlists
    cases hformat.symm.trans hsame
  | cons tokens lists =>
    obtain ⟨before, i, after, rfl, hbefore, hi, -⟩ := List.filterMap_eq_cons_iff.mp hlists
    obtain rfl : i = .weights tokens := by
      cases i with
      | weights tokens' =>
        cases hi
        rfl
      | _ => cases hi
    obtain ⟨input, rest, hitem⟩ := his.itemAt
    have hlength : tokens.length = 2 * (before.foldl Context.after WeightFormat.detect.context).variableCount := by
      cases hitem with
      | weights _ _ _ h => exact h.length_eq
    refine ⟨before, tokens, after, rfl, List.filterMap_eq_nil_iff.mpr hbefore, hlength, fun hheaders l hl => ?_⟩
    have hcount : d'.formula.variableCount ≤ (before.foldl Context.after WeightFormat.detect.context).variableCount := by
      have hcontext := congrArg Context.variableCount hperforms.context
      rw [List.foldl_append, List.foldl_cons] at hcontext
      refine hcontext.trans_le (variableCount_foldl_after (Nat.le_refl _) fun variableCount clauseCount hmem => ?_)
      have hheader := hheaders variableCount clauseCount hmem
      omega
    have hl : l.var.number ≤ d'.formula.variableCount := hl
    have hlt := code_lt l
    have hcode : l.code < tokens.length := by omega
    refine ⟨tokens[l.code], List.getElem?_eq_getElem hcode, (hweights l).trans ?_⟩
    rw [hlists, List.findSome?_cons, listedWeight?, List.getElem?_eq_getElem hcode]
    rfl

def listSource : Source :=
  { content := Text.Utf8.encode "p cnf 2 0\nc weights 1/4 3/4 0.5\n0.5\n".toList }

theorem parse_listed_lines : ∃ f log, parse listSource .detect #[] = .ok f log ∧ f.format = .minic2d ∧
    f.variableCount = 2 ∧ (∃ is, ItemsAt WeightFormat.detect.context listSource.content is) ∧
    ∀ is, ItemsAt WeightFormat.detect.context listSource.content is → ∃ before tokens after,
      is = before ++ .weights tokens :: after ∧
      ((∀ variableCount clauseCount, .header variableCount clauseCount ∈ after → 2 * variableCount ≤ tokens.length) →
        ∃ token, tokens[Variable.one.negative.code]? = some token ∧
          f.weights[Variable.one.negative]? = some (.ofToken token)) := by
  obtain ⟨f, log, hparse, hformat, hcount, hlog⟩ := parse_of_reads (rfl : listSource.ending = .endOfInput) .detect
    (fun f log => f.format = .minic2d ∧ f.variableCount = 2 ∧ log = #[.headerRead 2 0, .formatDetected .minic2d])
    (by decide +kernel)
  obtain ⟨hexists, hlisted⟩ := parse_listed rfl hparse (by simp [hlog]) hformat
  refine ⟨f, log, hparse, hformat, hcount, hexists, fun is his => ?_⟩
  obtain ⟨-, before, tokens, after, hsplit, -, -, hweights⟩ := hlisted is his
  refine ⟨before, tokens, after, hsplit, fun hheaders => hweights hheaders _ ?_⟩
  rw [hcount]
  decide

def earlyListSource : Source :=
  { content := Text.Utf8.encode "c weights 1/4 3/4\np cnf 1 0\n".toList }

/-- A list in front of the header has no tokens, and the variables of the header have no weights. -/
theorem parse_listed_early : ∃ f log, parse earlyListSource .detect #[] = .ok f log ∧
    (∀ e, .formulaNotRead e ∉ log.toList) ∧ f.format = .minic2d ∧ f.variableCount = 1 ∧
    f.weights[Variable.one.positive]? = none ∧ f.weights[Variable.one.negative]? = none := by
  obtain ⟨f, log, hparse, hlog, hkept⟩ := parse_of_reads (rfl : earlyListSource.ending = .endOfInput) .detect
    (fun f log => log = #[.formatDetected .minic2d, .headerRead 1 0] ∧ f.format = .minic2d ∧ f.variableCount = 1 ∧
      f.weights[Variable.one.positive]? = none ∧ f.weights[Variable.one.negative]? = none) (by decide +kernel)
  exact ⟨f, log, hparse, by simp [hlog], hkept⟩

end Formula
end WeightedCnf

import WeightedCnf.Proofs.Additions
import WeightedCnf.Proofs.ReductionBlocks
import WeightedCnf.Proofs.SupportAdditions

/-! The support is an ordered set, whatever is done to a formula: it lists what was added to it, each variable once, and
the set of bits beside it has the same members. So a reduction deals with each variable once. -/
namespace WeightedCnf

namespace Support
variable (s : Support) (v : Variable)

private theorem size_marks_insert : (s.insert v).marks.size = max s.marks.size (v.index + 1) := by
  unfold insert
  split
  · rename_i h
    have hlt : v.index < s.marks.size := of_decide_eq_true (Bool.and_eq_true _ _ ▸ h).1
    omega
  · rfl

private theorem size_marks_foldl_insert (vs : List Variable) :
    (vs.foldl insert s).marks.size = (vs.map (·.index + 1)).foldl max s.marks.size := by
  induction vs generalizing s with
  | nil => rfl
  | cons v vs ih => rw [List.foldl_cons, ih, size_marks_insert, List.map_cons, List.foldl_cons]

end Support

def Addition.supports : Addition → List Variable
  | supported v => [v]
  | freshVariable | clause _ | comment _ => []

def Event.removed? : Event → Option Variable
  | weightsRemoved v .. | roundedWeightRemoved v .. => some v
  | _ => none

def Log.removed (log : Log) : List Variable :=
  log.toList.filterMap Event.removed?

private theorem Log.removed_push (log : Log) (e : Event) :
    Log.removed (log.push e) = log.removed ++ e.removed?.toList := by
  rw [removed, removed, Array.toList_push, List.filterMap_append]
  cases he : e.removed? <;> simp [he]

namespace Formula
variable {f g : Formula} {vs xs : List Variable} {v : Variable} {added : List Line} {d : Nat} {log log' : Log}

/-- The variables that a reduction to `g` adds to the support: the new ones, if there is a support. -/
def joining (f g : Formula) : List Variable :=
  if f.support.isEmpty then []
  else (List.range' (f.variableCount + 1) (g.variableCount - f.variableCount)).filterMap Variable.ofNumber?

private theorem Grows.filterMap_numbers (h : Grows f g xs added) :
    (List.range' (f.variableCount + 1) (g.variableCount - f.variableCount)).filterMap Variable.ofNumber? = xs := by
  have hsame : (fun v : Variable => Variable.ofNumber? v.number) = some := funext Variable.ofNumber?_number
  rw [h.variableCount, Nat.add_sub_cancel_left, ← h.numbers, List.filterMap_map]
  change xs.filterMap (fun v => Variable.ofNumber? v.number) = xs
  rw [hsame, List.filterMap_some]

private theorem Grows.support_eq (h : Grows f g xs added) : g.support = (f.joining g).foldl Support.insert f.support := by
  rw [h.support, joining, h.filterMap_numbers]
  split <;> rfl

/-- A formula that operations lead to, with the variables that these added to the support, one after the other. The
same variable can be added again. -/
inductive IsReached : Formula → List Variable → Prop
  | empty : IsReached {} []
  | parsed {source : Source} {format : WeightFormat} {f : Formula} {log : Log} (h : parse source format #[] = .ok f log) :
    IsReached f (additions source format)
  | added {f g : Formula} {vs : List Variable} {a : Addition} (hf : IsReached f vs) (h : f.add a = .ok g) :
    IsReached g (vs ++ a.supports)
  | counted {f : Formula} {vs : List Variable} (hf : IsReached f vs) (variableCount clauseCount : Nat) :
    IsReached (f.setCounts variableCount clauseCount) vs
  | weighted {f : Formula} {vs : List Variable} (hf : IsReached f vs) (l : Literal) (w : Weight) :
    IsReached (f.setWeight l w) vs
  | reduced {f g : Formula} {vs : List Variable} (hf : IsReached f vs) (h : f.IsReduced g) :
    IsReached g (vs ++ f.joining g)

private theorem support_add {a : Addition} (h : f.add a = .ok g) :
    g.support = a.supports.foldl Support.insert f.support := by
  cases a with
  | freshVariable =>
    obtain ⟨⟨v, k⟩, hk, hg⟩ := bind_eq_ok.mp h
    cases hg
    obtain ⟨-, rfl⟩ := addVariable_eq_ok hk
    rfl
  | clause c =>
    have hgrows := (grows_addClause h).support
    rwa [List.foldl_nil, ite_self] at hgrows
  | comment text =>
    cases h
    rfl
  | supported v =>
    cases h
    rfl

/-- The support is made of the additions. -/
theorem IsReached.support_eq (h : f.IsReached vs) : f.support = vs.foldl Support.insert .empty := by
  induction h with
  | empty => rfl
  | parsed h => exact support_parse h
  | added _ h ih => rw [List.foldl_append, ← ih, support_add h]
  | counted _ _ _ ih => exact ih
  | weighted _ _ _ ih => exact ih
  | reduced _ h ih =>
    obtain ⟨_, -, blocks, -, hgrows, -⟩ := h.appendsBlocks
    rw [List.foldl_append, ← ih, hgrows.support_eq]

private theorem staysAsIs_congr (h : ∀ l, g.weight l = f.weight l) : g.StaysAsIs v ↔ f.StaysAsIs v := by
  simp only [StaysAsIs, IsSkipped, shares, h]

private theorem removed_of_stays (hstays : f.StaysAsIs v) (h : f.removeWeights v log = .ok (g, d) log') :
    log'.removed = log.removed := by
  unfold removeWeights at h
  dsimp only at h
  split at h
  · cases h
    exact (log.removed_push _).trans (List.append_nil _)
  rename_i hvalid
  obtain ⟨hp, hn⟩ : (f.weight v.positive).isValid = true ∧ (f.weight v.negative).isValid = true := by
    simpa using hvalid
  split at h
  · cases h
    exact (log.removed_push _).trans (List.append_nil _)
  rename_i hnonneg
  rw [if_pos (hstays.resolve_left ((isSkipped_iff_shares hp hn).not.mpr hnonneg))] at h
  cases h
  rfl

private theorem removed_removeWeights (h : f.removeWeights v log = .ok (g, d) log') :
    log'.removed = log.removed ++ [v].filter (¬ f.StaysAsIs ·) := by
  by_cases hstays : f.StaysAsIs v
  · rw [List.filter_cons_of_neg (by simpa using hstays), List.filter_nil, List.append_nil]
    exact removed_of_stays hstays h
  · rw [List.filter_cons_of_pos (by simpa using hstays), List.filter_nil]
    rw [removeWeights_of_not_stays hstays] at h
    obtain ⟨⟨xs, f₁⟩, log₁, haux, h⟩ := Logged.bind_eq_ok.mp h
    obtain ⟨f₂, log₂, hpositive, h⟩ := Logged.bind_eq_ok.mp h
    obtain ⟨f₃, log₃, hnegative, h⟩ := Logged.bind_eq_ok.mp h
    obtain ⟨_, log₄, hreport, hret⟩ := Logged.bind_eq_ok.mp h
    obtain ⟨-, rfl⟩ := Logged.lift_eq_ok.mp haux
    obtain ⟨-, rfl⟩ := Logged.lift_eq_ok.mp hpositive
    obtain ⟨-, rfl⟩ := Logged.lift_eq_ok.mp hnegative
    cases hreport
    cases hret
    exact log.removed_push _

/-- The exact reduction removes the weights of the free variables that do not stay as they are, one after the other. -/
theorem removed_reduce (hvs : f.freeVariables = .ok vs) (h : f.reduce log = .ok (g, d) log') :
    log'.removed = log.removed ++ vs.filter (¬ f.StaysAsIs ·) := by
  obtain ⟨_, log₁, hlift, hrun⟩ := Logged.bind_eq_ok.mp h
  obtain ⟨hvs', rfl⟩ := Logged.lift_eq_ok.mp hlift
  cases hvs.symm.trans hvs'
  refine (Logged.foldlM_induction (fun done (s : Formula × Nat) log₂ => (∀ l, s.1.weight l = f.weight l) ∧
    log₂.removed = log.removed ++ done.filter (¬ f.StaysAsIs ·)) ?_ ⟨fun _ => rfl, (List.append_nil _).symm⟩ hrun).2
  intro done v s s' log₂ log₃ _ ⟨hweight, hdone⟩ hstep
  obtain ⟨⟨k, e⟩, log₄, hremove, hret⟩ := Logged.bind_eq_ok.mp hstep
  cases hret
  obtain ⟨_, _, hblock⟩ := appendsBlock_removeWeights hremove
  refine ⟨fun l => (hblock.grows.weight l).trans (hweight l), ?_⟩
  rw [removed_removeWeights hremove, hdone, List.filter_append, List.append_assoc]
  simp only [staysAsIs_congr hweight]

/-- Rounding the weights of a variable adjusts this variable or none, and leaves it alone only with a warning. -/
private theorem vars_of_roundWeights {denom : Int64} {rounding : Rounding} {as : List Adjustment}
    (h : f.roundWeights denom rounding v log = .ok (g, d, as) log') : (as.map Adjustment.var).Sublist [v] ∧
      log.toList ⊆ log'.toList ∧
      (f.IsUnweighted v ∨ v ∈ as.map Adjustment.var ∨ ∃ e ∈ log'.toList, e.isSkipOf v = true) := by
  cases treatment_of_roundWeights h with
  | unweighted hone => exact ⟨List.nil_sublist _, List.Subset.refl _, .inl hone⟩
  | skipped e _ hskip =>
    rw [Array.toList_push]
    exact ⟨List.nil_sublist _, List.subset_append_left _ _, .inr (.inr ⟨e, by simp, hskip⟩)⟩
  | rounded _ _ _ _ _ _ _ _ _ hremove =>
    obtain ⟨-, events, hlog, -⟩ := removal_of_removeRounded hremove
    rw [hlog]
    exact ⟨List.Sublist.refl _, List.subset_append_left _ _, .inr (.inl (List.mem_singleton_self v))⟩

/-- The dyadic reduction adjusts free variables, one after the other; a variable is only left alone with a warning, or
if it is unweighted. -/
theorem adjusted_reduceDyadic {bits : Nat} {rounding : Rounding} {r : DyadicReduction} (hvs : f.freeVariables = .ok vs)
    (h : f.reduceDyadic bits rounding log = .ok (g, r) log') : (r.adjustments.map Adjustment.var).Sublist vs ∧
      ∀ v ∈ vs, f.IsUnweighted v ∨ v ∈ r.adjustments.map Adjustment.var ∨ ∃ e ∈ log'.toList, e.isSkipOf v = true := by
  obtain ⟨-, _, hvs', hrun⟩ := reduceDyadic_eq_ok.mp h
  cases hvs.symm.trans hvs'
  refine (Logged.foldlM_induction (fun done (s : Formula × DyadicReduction) log₂ =>
    (∀ l, s.1.weight l = f.weight l) ∧ (s.2.adjustments.map Adjustment.var).Sublist done ∧
      ∀ v ∈ done, f.IsUnweighted v ∨ v ∈ s.2.adjustments.map Adjustment.var ∨
        ∃ e ∈ log₂.toList, e.isSkipOf v = true) ?_ ⟨fun _ => rfl, List.Sublist.refl _, nofun⟩ hrun).2
  rintro done v ⟨k, r⟩ s' log₂ log₃ _ ⟨hweight, hsub, hdone⟩ hnext
  obtain ⟨k', e, as, hround, rfl⟩ := roundNext_eq_ok.mp hnext
  obtain ⟨_, _, hblock⟩ := appendsBlock_roundWeights hround
  obtain ⟨hsub', hkept, hv⟩ := vars_of_roundWeights hround
  refine ⟨fun l => (hblock.grows.weight l).trans (hweight l), ?_, List.forall_mem_append.mpr ⟨fun u hu => ?_, ?_⟩⟩
  · rw [List.map_append]
    exact hsub.append hsub'
  · refine (hdone u hu).imp_right (Or.imp (fun hmem => ?_) fun ⟨e, he, hskip⟩ => ⟨e, hkept he, hskip⟩)
    rw [List.map_append]
    exact List.mem_append_left _ hmem
  · rintro u hu
    rw [List.mem_singleton.mp hu, List.map_append]
    exact hv.imp (isUnweighted_congr hweight).mp (Or.imp_left (List.mem_append_right _))

/-- The support is that of a formula to which variables were added, one after the other: they are listed by their first
additions, and the set of bits has the same members and just the size for them. -/
structure ListsAdditions (f : Formula) (vs : List Variable) : Prop where
  toList : f.support.toList = vs.eraseDups
  nodup : f.support.toList.Nodup
  testBit : ∀ i, f.support.marks.digits.testBit i = true ↔ ∃ v ∈ f.support.toList, v.index = i
  size : f.support.marks.size = (vs.map (·.index + 1)).foldl max 0

/-- Reductions deal with each of the free variables once, in their order. Each gets one block of lines; the exact
reduction removes its weights once, unless they stay as they are, and the dyadic one rounds them once, unless they are
one or it warns. -/
structure ReducesOnce (f : Formula) (free : List Variable) : Prop where
  nodup : free.Nodup
  blocks : ∀ {g}, f.IsReduced g → f.AppendsBlocks free g
  removed : ∀ {g d log log'}, f.reduce log = .ok (g, d) log' →
    log'.removed = log.removed ++ free.filter (¬ f.StaysAsIs ·)
  adjusted : ∀ {bits rounding g r log log'}, f.reduceDyadic bits rounding log = .ok (g, r) log' →
    (r.adjustments.map Adjustment.var).Sublist free ∧
    ∀ v ∈ free, f.IsUnweighted v ∨ v ∈ r.adjustments.map Adjustment.var ∨ ∃ e ∈ log'.toList, e.isSkipOf v = true

private theorem listsAdditions (h : f.support = vs.foldl Support.insert .empty) : f.ListsAdditions vs where
  toList := h ▸ toList_foldl_insert_empty vs
  nodup := f.support.nodup
  testBit i := BitSet.contains_eq_testBit f.support.marks i ▸ f.support.contains_marks i
  size := h ▸ Support.size_marks_foldl_insert .empty vs

private theorem reducesOnce (hfree : f.freeVariables = .ok vs) : f.ReducesOnce vs where
  nodup := (freeVariables_eq_ok hfree).1
  blocks h := by
    obtain ⟨free, hfree', hblocks⟩ := h.appendsBlocks
    cases hfree.symm.trans hfree'
    exact hblocks
  removed h := removed_reduce hfree h
  adjusted h := adjusted_reduceDyadic hfree h

/-- The support of a formula that operations lead to is an ordered set of the variables that they added, and the
reductions deal with each of its members once. -/
theorem IsReached.support_ordered (h : f.IsReached vs) :
    f.ListsAdditions vs ∧ ∀ free, f.freeVariables = .ok free → f.ReducesOnce free where
  left := listsAdditions h.support_eq
  right _ := reducesOnce

def repeatedSource : Source :=
  { content := Text.Utf8.encode "p cnf 3 1\nc ind 3 1 3 0\nw 1 1/3 0\nc ind 1 2 0\n1 2 0\n".toList }

/-- Variables are added to what is read from the text, a large one before a small one that is there already, and the
weight is removed. -/
theorem support_ordered_repeated : ∃ f log v k g d log', parse repeatedSource .detect #[] = .ok f log ∧
    (f.addSupport ⟨69, by decide⟩).addVariable = .ok (v, k) ∧ (k.addSupport .one).reduce log = .ok (g, d) log' ∧
    g.ListsAdditions (additions repeatedSource .detect ++ [⟨69, by decide⟩] ++ [] ++ [.one] ++
      (k.addSupport .one).joining g) ∧
    (k.addSupport .one).ReducesOnce [⟨2, by decide⟩, .one, ⟨1, by decide⟩, ⟨69, by decide⟩] := by
  obtain ⟨f, log, hparse, hcount, hsupport, hreduced⟩ := parse_of_reads
    (rfl : repeatedSource.ending = .endOfInput) .detect (fun f log => f.variableCount = 3 ∧
      ((f.addSupport ⟨69, by decide⟩).addSupport .one).support.toList =
        [⟨2, by decide⟩, .one, ⟨1, by decide⟩, ⟨69, by decide⟩] ∧
      gives (fun _ _ => True) ((({ f.addSupport ⟨69, by decide⟩ with variableCount := f.variableCount + 1 }
        : Formula).addSupport .one).reduce log) = true) (by decide +kernel)
  obtain ⟨⟨g, d⟩, log', hreduce, -⟩ := exists_of_gives hreduced
  have hlimit : f.variableCount + 1 ≤ Variable.limit := by
    rw [hcount]
    decide
  obtain ⟨v, hv⟩ := (f.addSupport ⟨69, by decide⟩).exists_addVariable hlimit
  have hreached := (((IsReached.parsed hparse).added (a := .supported ⟨69, by decide⟩) rfl).added (a := .freshVariable)
    (bind_eq_ok.mpr ⟨_, hv, rfl⟩)).added (a := .supported .one) rfl
  have hordered := (hreached.reduced (.exact hreduce)).support_ordered
  refine ⟨f, log, v, _, g, d, log', hparse, hv, hreduce, hordered.1, hreached.support_ordered.2 _ ?_⟩
  rw [freeVariables, if_neg, ← hsupport]
  · rfl
  · rw [Support.isEmpty_iff]
    exact fun hnil => List.cons_ne_nil _ _ (hsupport.symm.trans hnil)

/-- After a text that is read without a complaint the support lists the members of the support lists of the text first,
and then what later operations added. -/
theorem IsReached.listsAdditions_of_items {source : Source} {format : WeightFormat} {is : List Item}
    (h : g.IsReached (additions source format ++ vs)) (hending : source.ending = .endOfInput)
    (hparse : parse source format #[] = .ok f log) (haccepted : ∀ e, .formulaNotRead e ∉ log.toList)
    (his : ItemsAt format.context source.content is) : g.ListsAdditions (is.flatMap Item.supported ++ vs) := by
  have hsame := foldl_insert_additions hending hparse haccepted his
  have hsupport := h.support_eq
  rw [List.foldl_append, hsame, ← List.foldl_append] at hsupport
  exact listsAdditions hsupport

end Formula
end WeightedCnf

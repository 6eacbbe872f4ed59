import WeightedCnf.Proofs.ReductionLines

/-! What a reduction appends comes in one block for each free variable, in the order of these: new variables that belong
to this variable only, and lines in which every clause is about this variable and its own new ones. -/
namespace WeightedCnf

/-- What a reduction appends for one variable. -/
structure Block where
  var : Variable
  auxiliaries : List Variable
  lines : List Line
deriving DecidableEq, Repr

/-- A clause that contains a literal of the variable `v` and otherwise only literals of the variables `xs`. -/
def Clause.IsAbout (v : Variable) (xs : List Variable) (clause : Clause) : Prop :=
  ∃ guard rest, clause = guard :: rest ∧ guard.var = v ∧ ∀ l ∈ rest, l.var ∈ xs

/-- The lines are comments on rounded weights, and clauses about the variable and its auxiliary ones. -/
structure Block.IsOwn (b : Block) : Prop where
  lines : ∀ line ∈ b.lines, line.IsReduction
  clauses : ∀ clause ∈ b.lines.flatMap Line.clauses, clause.IsAbout b.var b.auxiliaries

namespace Formula
variable {f g k : Formula} {v : Variable} {xs : List Variable} {added more : List Line} {b : Block} {d : Nat}
  {log log' : Log}

/-- `g` is `f` with this block. -/
structure AppendsBlock (f : Formula) (b : Block) (g : Formula) : Prop where
  grows : Grows f g b.auxiliaries b.lines
  own : b.IsOwn

private theorem appendsBlock_nothing (f : Formula) (v : Variable) : f.AppendsBlock ⟨v, [], []⟩ f :=
  ⟨.refl f, nofun, nofun⟩

namespace AppendsBlock

private theorem append (h : f.AppendsBlock b g) (hgrows : Grows g k [] more) (hlines : ∀ line ∈ more, line.IsReduction)
    (hclauses : ∀ clause ∈ more.flatMap Line.clauses, clause.IsAbout b.var b.auxiliaries) :
    f.AppendsBlock ⟨b.var, b.auxiliaries, b.lines ++ more⟩ k where
  grows := by simpa using h.grows.trans hgrows
  own :=
    { lines := List.forall_mem_append.mpr ⟨h.own.lines, hlines⟩
      clauses := by
        rw [List.flatMap_append]
        exact List.forall_mem_append.mpr ⟨h.own.clauses, hclauses⟩ }

private theorem addComment (h : f.AppendsBlock b g) (a : Adjustment) :
    f.AppendsBlock ⟨b.var, b.auxiliaries, b.lines ++ [.comment a.comment]⟩ (g.addComment a.comment) := by
  refine h.append (grows_addComment g _) (fun line hline => ?_) nofun
  rw [List.mem_singleton.mp hline]
  exact ⟨_, rfl, by simp [Weight.text]⟩

private theorem addAuxiliaries {count : Nat} (h : f.AppendsBlock ⟨v, [], added⟩ g)
    (hauxiliaries : g.addAuxiliaries count = .ok (xs, k)) : f.AppendsBlock ⟨v, xs, added⟩ k where
  grows := by simpa using h.grows.trans (grows_addAuxiliaries hauxiliaries).2
  own :=
    { lines := h.own.lines
      clauses := fun clause hclause => by
        obtain ⟨guard, rest, hsplit, hvar, hrest⟩ := h.own.clauses clause hclause
        exact ⟨guard, rest, hsplit, hvar, fun l hl => absurd (hrest l hl) List.not_mem_nil⟩ }

private theorem addGuarded {guard : Literal} {cs : List Clause} (h : f.AppendsBlock ⟨v, xs, added⟩ g)
    (hguard : guard.var = v)
    (hgrows : Grows g k [] ((cs.map (guard :: ·)).map .clause)) (hover : OnlyOver (· ∈ xs) cs) :
    ∃ lines, f.AppendsBlock ⟨v, xs, lines⟩ k := by
  refine ⟨_, h.append hgrows (fun line hline => ?_) fun clause hclause => ?_⟩
  · obtain ⟨clause, hclause, rfl⟩ := List.mem_map.mp hline
    obtain ⟨c, -, rfl⟩ := List.mem_map.mp hclause
    exact List.cons_ne_nil guard c
  · rw [flatMap_clauses] at hclause
    obtain ⟨c, hc, rfl⟩ := List.mem_map.mp hclause
    exact ⟨guard, c, rfl, hguard, hover c hc⟩

end AppendsBlock

private theorem onlyOver_of_threshold {ls : List Literal} {count : Nat} {cs : List Clause}
    (h : Threshold ls count cs) (hls : ls.map Literal.var = xs) : OnlyOver (· ∈ xs) cs :=
  hls ▸ h.onlyOver

/-- The exact reduction appends one block for each variable. -/
theorem appendsBlock_removeWeights (h : f.removeWeights v log = .ok (g, d) log') :
    ∃ xs lines, f.AppendsBlock ⟨v, xs, lines⟩ g := by
  by_cases hstays : f.StaysAsIs v
  · obtain ⟨_, hkeep⟩ := removeWeights_of_stays hstays log
    cases hkeep.symm.trans h
    exact ⟨[], [], appendsBlock_nothing f v⟩
  rw [removeWeights_of_not_stays hstays] at h
  obtain ⟨⟨xs, f₁⟩, log₁, haux, h⟩ := Logged.bind_eq_ok.mp h
  obtain ⟨f₂, log₂, hpositive, h⟩ := Logged.bind_eq_ok.mp h
  obtain ⟨f₃, log₃, hnegative, h⟩ := Logged.bind_eq_ok.mp h
  obtain ⟨_, log₄, -, hret⟩ := Logged.bind_eq_ok.mp h
  cases hret
  obtain ⟨ps, hps, hgps⟩ := addShare_eq_ok (Logged.lift_eq_ok.mp hpositive).1
  obtain ⟨ns, hns, hgns⟩ := addShare_eq_ok (Logged.lift_eq_ok.mp hnegative).1
  have hvars : (xs.map Variable.positive).map Literal.var = xs := map_var_mk xs true
  have h₁ := (appendsBlock_nothing f v).addAuxiliaries (Logged.lift_eq_ok.mp haux).1
  obtain ⟨lines₂, h₂⟩ := h₁.addGuarded rfl hgps (onlyOver_of_threshold hps hvars)
  obtain ⟨lines₃, h₃⟩ := h₂.addGuarded rfl hgns (onlyOver_of_threshold hns hvars)
  exact ⟨xs, lines₃, h₃⟩

private theorem AppendsBlock.removal {w : Weight} (hb : f.AppendsBlock ⟨v, [], added⟩ g) (h : Removal g v w k d) :
    ∃ xs lines, f.AppendsBlock ⟨v, xs, lines⟩ k := by
  cases h with
  | half => exact ⟨[], added, hb⟩
  | certain b _ hadd =>
    have hover : OnlyOver (· ∈ ([] : List Variable)) [[]] := by
      rintro c hc l hl
      rw [List.mem_singleton.mp hc] at hl
      exact absurd hl List.not_mem_nil
    have hgrows : Grows g k [] (([[]].map ((⟨v, b⟩ : Literal) :: ·)).map .clause) := grows_addClause hadd
    obtain ⟨lines, hlines⟩ := hb.addGuarded rfl hgrows hover
    exact ⟨[], lines, hlines⟩
  | @chains xs f₁ f₂ f₃ rest hhalf hzero hone hauxiliaries hup hrest hdown =>
    obtain ⟨ps, hps, hgps⟩ := grows_addGuardedChain hup
    obtain ⟨ns, hns, hgns⟩ := grows_addGuardedChain hdown
    have h₁ := hb.addAuxiliaries hauxiliaries
    obtain ⟨lines₂, h₂⟩ := h₁.addGuarded rfl hgps (onlyOver_of_threshold (Chain.threshold hps) (map_var_mk xs true))
    obtain ⟨lines₃, h₃⟩ := h₂.addGuarded rfl hgns (onlyOver_of_threshold (Chain.threshold hns) (map_var_mk xs false))
    exact ⟨xs, lines₃, h₃⟩

/-- The dyadic reduction appends one block for each variable. -/
theorem appendsBlock_roundWeights {denom : Int64} {rounding : Rounding} {as : List Adjustment}
    (h : f.roundWeights denom rounding v log = .ok (g, d, as) log') :
    ∃ xs lines, f.AppendsBlock ⟨v, xs, lines⟩ g := by
  cases treatment_of_roundWeights h with
  | unweighted => exact ⟨[], [], appendsBlock_nothing f v⟩
  | skipped => exact ⟨[], [], appendsBlock_nothing f v⟩
  | rounded _ _ _ _ _ _ _ _ _ hremove =>
    exact ((appendsBlock_nothing f v).addComment _).removal (removal_of_removeRounded hremove).1

/-- `g` is `f` with the blocks of the variables `done`. -/
def AppendsBlocks (f : Formula) (done : List Variable) (g : Formula) : Prop :=
  ∃ blocks : List Block, blocks.map Block.var = done ∧
    Grows f g (blocks.flatMap Block.auxiliaries) (blocks.flatMap Block.lines) ∧ ∀ b ∈ blocks, b.IsOwn

namespace AppendsBlocks

private theorem refl (f : Formula) : f.AppendsBlocks [] f := ⟨[], rfl, .refl f, nofun⟩

private theorem step {done : List Variable} (h : f.AppendsBlocks done g)
    (hblock : ∃ xs lines, g.AppendsBlock ⟨v, xs, lines⟩ k) : f.AppendsBlocks (done ++ [v]) k := by
  obtain ⟨blocks, hvars, hgrows, hown⟩ := h
  obtain ⟨xs, lines, hgrows', hown'⟩ := hblock
  refine ⟨blocks ++ [⟨v, xs, lines⟩], ?_, ?_, ?_⟩
  · rw [List.map_append, hvars]
    rfl
  · simpa [List.flatMap_append] using hgrows.trans hgrows'
  · exact List.forall_mem_append.mpr ⟨hown, fun b hb => List.mem_singleton.mp hb ▸ hown'⟩

end AppendsBlocks

/-- What one of the two reductions makes of a formula. -/
inductive IsReduced (f : Formula) : Formula → Prop
  | exact {g : Formula} {d : Nat} {log log' : Log} (h : f.reduce log = .ok (g, d) log') : IsReduced f g
  | dyadic {g : Formula} {bits : Nat} {rounding : Rounding} {r : DyadicReduction} {log log' : Log}
    (h : f.reduceDyadic bits rounding log = .ok (g, r) log') : IsReduced f g

/-- A whole run appends the blocks of all free variables. -/
theorem IsReduced.appendsBlocks (h : f.IsReduced g) : ∃ vs, f.freeVariables = .ok vs ∧ f.AppendsBlocks vs g := by
  cases h with
  | exact h =>
    obtain ⟨vs, log₁, hvs, hrun⟩ := Logged.bind_eq_ok.mp h
    refine ⟨vs, (Logged.lift_eq_ok.mp hvs).1, Logged.foldlM_induction
      (fun done (s : Formula × Nat) _ => f.AppendsBlocks done s.1) ?_ (.refl f) hrun⟩
    intro done v s s' log₂ log₃ _ hdone hstep
    obtain ⟨⟨k, e⟩, log₄, hremove, hret⟩ := Logged.bind_eq_ok.mp hstep
    cases hret
    exact hdone.step (appendsBlock_removeWeights hremove)
  | dyadic h =>
    obtain ⟨-, vs, hvs, hrun⟩ := reduceDyadic_eq_ok.mp h
    refine ⟨vs, hvs, Logged.foldlM_induction
      (fun done (s : Formula × DyadicReduction) _ => f.AppendsBlocks done s.1) ?_ (.refl f) hrun⟩
    rintro done v ⟨k, r⟩ s' log₂ log₃ _ hdone hnext
    obtain ⟨k', e, as, hround, rfl⟩ := roundNext_eq_ok.mp hnext
    exact hdone.step (appendsBlock_roundWeights hround)

private theorem toList_foldl_insert {s : Support} (hnodup : xs.Nodup) (hnew : ∀ v ∈ xs, v ∉ s.toList) :
    (xs.foldl Support.insert s).toList = s.toList ++ xs := by
  induction xs generalizing s with
  | nil => exact (List.append_nil _).symm
  | cons x xs ih =>
    obtain ⟨hx, hxs⟩ := List.nodup_cons.mp hnodup
    obtain ⟨hfirst, hothers⟩ := List.forall_mem_cons.mp hnew
    have hinsert : (s.insert x).toList = s.toList ++ [x] :=
      Support.toList_insert fun hcontains => hfirst ((s.contains_iff x).mp hcontains)
    rw [List.foldl_cons, ih hxs fun v hv => ?_, hinsert, List.append_assoc, List.singleton_append]
    rw [hinsert, List.mem_append, List.mem_singleton]
    rintro (hmem | rfl)
    · exact hothers v hv hmem
    · exact hx hv

private theorem Grows.toList_support (h : Grows f g xs added) (hr : f.SupportInRange) :
    g.support.toList = if f.support.isEmpty then [] else f.support.toList ++ xs := by
  rw [h.support]
  split
  · rename_i hempty
    exact Support.isEmpty_iff.mp hempty
  · refine toList_foldl_insert h.nodup fun v hv hmem => ?_
    have := hr v hmem
    have := h.number_of_mem hv
    omega

/-- If the auxiliary variables of all blocks are distinct, each belongs to one block. -/
private theorem existsUnique_block {blocks : List Block} (hnodup : (blocks.flatMap Block.auxiliaries).Nodup)
    {u : Variable} (hu : u ∈ blocks.flatMap Block.auxiliaries) : ∃! b, b ∈ blocks ∧ u ∈ b.auxiliaries := by
  obtain ⟨b, hb, hub⟩ := List.mem_flatMap.mp hu
  refine ⟨b, ⟨hb, hub⟩, fun c ⟨hc, huc⟩ => by_contra fun hne => ?_⟩
  have : Std.Symm (Function.onFun List.Disjoint Block.auxiliaries) := ⟨fun _ _ h => h.symm⟩
  exact (List.nodup_flatMap.mp hnodup).2.forall hc hb hne huc hub

/-- A reduction appends to the body and to the support and leaves the weights and the format alone. What it appends
are the blocks of the free variables: the new variables have the next numbers in the order of the blocks, each of
them belongs to one block, and every new clause is about the variable of its block and the new variables of this block. -/
theorem appends_of_isReduced (hr : f.SupportInRange) (h : f.IsReduced g) :
    ∃ blocks : List Block, f.freeVariables = .ok (blocks.map Block.var) ∧ (blocks.map Block.var).Nodup ∧
      g.body.toList = f.body.toList ++ blocks.flatMap Block.lines ∧
      g.weights = f.weights ∧ g.format = f.format ∧ f.variableCount ≤ g.variableCount ∧
      (blocks.flatMap Block.auxiliaries).map Variable.number =
        List.range' (f.variableCount + 1) (g.variableCount - f.variableCount) ∧
      g.support.toList =
        (if f.support.isEmpty then [] else f.support.toList ++ blocks.flatMap Block.auxiliaries) ∧
      g.clauseCount = f.clauseCount + ((blocks.flatMap Block.lines).flatMap Line.clauses).length ∧
      (∀ b ∈ blocks, b.var ∈ f.free ∧ b.IsOwn ∧ ∀ u ∈ b.auxiliaries, u ∉ f.free) ∧
      ∀ u : Variable, f.variableCount < u.number → u.number ≤ g.variableCount →
        ∃! b, b ∈ blocks ∧ u ∈ b.auxiliaries := by
  obtain ⟨vs, hvs, blocks, hvars, hgrows, hown⟩ := h.appendsBlocks
  obtain ⟨hnodup, hfree⟩ := freeVariables_eq_ok hvs
  have hcount := hgrows.variableCount
  subst hvars
  refine ⟨blocks, hvs, hnodup, hgrows.body, hgrows.weights, hgrows.format, by omega, ?_, hgrows.toList_support hr,
    hgrows.clauseCount, fun b hb => ⟨?_, hown b hb, fun u hu hmem => ?_⟩, fun u hlow hhigh => ?_⟩
  · rw [hgrows.numbers, hcount, Nat.add_sub_cancel_left]
  · exact hfree ▸ List.mem_toFinset.mpr (List.mem_map_of_mem hb)
  · have := hr.number_le hmem
    have := hgrows.number_of_mem (List.mem_flatMap.mpr ⟨b, hb, hu⟩)
    omega
  · exact existsUnique_block hgrows.nodup (hgrows.mem_of_number hlow hhigh)

/-- One formula with a support and one without, each reduced in one of the two ways. -/
theorem appends_of_isReduced_thirds_biased : ∃ g k, thirds.IsReduced g ∧ biased.IsReduced k ∧
    (∃ blocks : List Block, blocks.map Block.var = [.one] ∧
      (blocks.flatMap Block.auxiliaries).map Variable.number = [3, 4] ∧
      g.support.toList = .one :: blocks.flatMap Block.auxiliaries ∧ ∀ b ∈ blocks, b.IsOwn) ∧
    ∃ blocks : List Block, (blocks.map Block.var).map Variable.number = [1, 2] ∧
      (blocks.flatMap Block.auxiliaries).map Variable.number = [3, 4] ∧
      k.support.toList = [] ∧ ∀ b ∈ blocks, b.IsOwn := by
  obtain ⟨g, log, hreduce, hcount⟩ : ∃ g log, thirds.reduce #[] = .ok (g, 3) log ∧ g.variableCount = 4 :=
    ⟨_, _, rfl, rfl⟩
  obtain ⟨k, r, log', hround, hcount'⟩ : ∃ k r log', biased.reduceDyadic 2 .down #[] = .ok (k, r) log' ∧
    k.variableCount = 4 := ⟨_, _, _, rfl, rfl⟩
  refine ⟨g, k, .exact hreduce, .dyadic hround, ?_, ?_⟩
  · obtain ⟨blocks, hvars, -, -, -, -, -, hnumbers, hsupport, -, hown, -⟩ :=
      appends_of_isReduced (by decide) (.exact hreduce)
    rw [hcount] at hnumbers
    exact ⟨blocks, (Except.ok.inj hvars).symm, hnumbers, hsupport, fun b hb => (hown b hb).2.1⟩
  · obtain ⟨blocks, hvars, -, -, -, -, -, hnumbers, hsupport, -, hown, -⟩ :=
      appends_of_isReduced (by decide) (.dyadic hround)
    rw [hcount'] at hnumbers
    refine ⟨blocks, ?_, hnumbers, hsupport, fun b hb => (hown b hb).2.1⟩
    rw [← Except.ok.inj hvars]
    rfl

end Formula
end WeightedCnf

import Mathlib.Tactic.NormNum
import WeightedCnf.Proofs.ChainThresholds
import WeightedCnf.Proofs.Growth

/-! How the weighted sum over the projected models changes when weights are replaced by clauses. -/
namespace WeightedCnf
open WeightedCnf.Valuation

/-- Clauses that bind where the variable is true, and clauses that bind where it is false. -/
def guarded (v : Variable) (ifTrue ifFalse : List Clause) : List Clause :=
  ifTrue.map (v.negative :: ·) ++ ifFalse.map (v.positive :: ·)

variable {v : Variable} {xs : List Variable} {lp ln : List Literal} {p n : Nat} {ps ns : List Clause}

private theorem satisfies_guarded (a : Valuation) :
    a.satisfies (guarded v ps ns) = if a v then a.satisfies ps else a.satisfies ns := by
  rw [guarded, satisfies_append, Valuation.satisfies, Valuation.satisfies, List.all_map, List.all_map]
  cases hv : a v <;>
    simp [Valuation.satisfies, Valuation.literal, Variable.positive, Variable.negative, hv, Function.comp_def]

theorem onlyOver_guarded {q : Variable → Prop} (hv : q v) (hps : OnlyOver q ps) (hns : OnlyOver q ns) :
    OnlyOver q (guarded v ps ns) := by
  have hmap : ∀ {l : Literal} {cs : List Clause}, l.var = v → OnlyOver q cs →
      OnlyOver q (cs.map (l :: ·)) := by
    intro l cs hl hcs c hc k hk
    obtain ⟨d, hd, rfl⟩ := List.mem_map.mp hc
    rcases List.mem_cons.mp hk with rfl | hk
    · exact hl ▸ hv
    · exact hcs d hd k hk
  exact (hmap rfl hps).append (hmap rfl hns)

section Thresholds
variable (hp : Threshold lp p ps) (hn : Threshold ln n ns) (hlp : lp.map Literal.var = xs)
  (hln : ln.map Literal.var = xs) (hv : v ∉ xs)
include hp hn hlp hln hv

/-- The value of the variable says which threshold binds, and does not matter for it. -/
theorem satisfies_update_guarded (t : Valuation) (b : Bool) :
    Valuation.satisfies (Function.update t v b) (guarded v ps ns) = if b then t.satisfies ps else t.satisfies ns := by
  have hupdate : ∀ {ls : List Literal} {cs : List Clause} {count : Nat}, Threshold ls count cs →
      ls.map Literal.var = xs → Valuation.satisfies (Function.update t v b) cs = t.satisfies cs := by
    intro ls cs count h hls
    refine satisfies_congr (h.onlyOver.mono fun u hu => Function.update_of_ne ?_ ..)
    rintro rfl
    exact hv (hls ▸ hu)
  rw [satisfies_guarded, Function.update_self, hupdate hp hlp, hupdate hn hln]

/-- Guarded thresholds have as many extensions as the one says that binds. -/
theorem extensions_guarded (hd : xs.Nodup) (b : Bool) :
    extensions (guarded v ps ns) xs.toFinset v b = if b then p else n := by
  unfold extensions
  simp only [satisfies_update_guarded hp hn hlp hln hv]
  cases b with
  | true => exact hp.card_models hlp hd
  | false => exact hn.card_models hln hd

end Thresholds

theorem flatMap_clauses (cs : List Clause) : (cs.map Line.clause).flatMap Line.clauses = cs := by
  rw [List.flatMap_map]
  exact List.flatMap_singleton' cs

theorem map_var_mk (xs : List Variable) (b : Bool) : (xs.map (Literal.mk · b)).map Literal.var = xs := by
  rw [List.map_map]
  exact List.map_id xs

private theorem isAdded_of_mem_map {cs : List Clause} : ∀ line ∈ cs.map Line.clause, line.IsAdded := by
  intro line hline
  obtain ⟨c, -, rfl⟩ := List.mem_map.mp hline
  exact trivial

namespace Formula
variable {f g k : Formula} {d e : Nat} {u w : Valuation → ℚ}

/-- Sums over the projected models of `g` are those over the projected models of `f` with an additional
weight `u`, times `d`. -/
structure Rescales (f g : Formula) (d : Nat) (u : Valuation → ℚ) : Prop where
  free : f.free ⊆ g.free
  supportInRange : g.SupportInRange
  weight : ∀ l, g.weight l = f.weight l
  restrict : ∀ m, u (m.restrict f.free) = u m
  sum : ∀ {cnf}, f.toCnf = .ok cnf → ∃ cnf', g.toCnf = .ok cnf' ∧
    ∀ W : Valuation → ℚ, (∀ m, W (m.restrict f.free) = W m) →
      ∑ m ∈ cnf'.models g.free, W m = d * ∑ m ∈ cnf.models f.free, u m * W m

namespace Rescales

theorem refl (hr : f.SupportInRange) : Rescales f f 1 fun _ => 1 where
  free := subset_rfl
  supportInRange := hr
  weight _ := rfl
  restrict _ := rfl
  sum hf := ⟨_, hf, fun W _ => by simp⟩

/-- Everything counts half, twice. -/
theorem half (hr : f.SupportInRange) : Rescales f f 2 fun _ => 1 / 2 where
  free := subset_rfl
  supportInRange := hr
  weight _ := rfl
  restrict _ := rfl
  sum hf := by
    refine ⟨_, hf, fun W _ => ?_⟩
    rw [← Finset.mul_sum, ← mul_assoc]
    norm_num

theorem congr (h : Rescales f g d u) (hw : ∀ m, u m = w m) : Rescales f g d w :=
  (funext hw : u = w) ▸ h

theorem trans (h : Rescales f g d u) (h' : Rescales g k e w) (hw : ∀ m, w (m.restrict f.free) = w m) :
    Rescales f k (d * e) fun m => u m * w m where
  free := h.free.trans h'.free
  supportInRange := h'.supportInRange
  weight l := (h'.weight l).trans (h.weight l)
  restrict m := by rw [h.restrict, hw]
  sum hf := by
    obtain ⟨cnf', hg, hsum⟩ := h.sum hf
    obtain ⟨cnf'', hk, hsum'⟩ := h'.sum hg
    refine ⟨cnf'', hk, fun W hW => ?_⟩
    have hW' : ∀ m, W (m.restrict g.free) = W m := fun m => by
      rw [← hW (m.restrict g.free), restrict_restrict h.free, hW]
    rw [hsum' W hW', hsum (fun m => w m * W m) fun m => by rw [hw, hW]]
    push_cast
    simp only [mul_assoc]
    ring

/-- One more variable contributes one more factor. -/
theorem step {done : List Variable} {q : Variable → Bool → ℚ}
    (h : Rescales f g d fun m => (done.map fun v => q v (m v)).prod) (hv : v ∈ f.free)
    (h' : Rescales g k e fun m => q v (m v)) :
    Rescales f k (d * e) fun m => ((done ++ [v]).map fun v => q v (m v)).prod := by
  have hstep := h.trans h' fun m => by rw [restrict_of_mem hv]
  simpa using hstep

/-- The number of projected models is the weighted sum times the factor. -/
theorem card_models (h : Rescales f g d u) {cnf : Cnf} (hf : f.toCnf = .ok cnf) :
    ∃ cnf', g.toCnf = .ok cnf' ∧ ((cnf'.models g.free).card : ℚ) = d * ∑ m ∈ cnf.models f.free, u m := by
  obtain ⟨cnf', hg, hsum⟩ := h.sum hf
  refine ⟨cnf', hg, ?_⟩
  have hone := hsum (fun _ => 1) fun _ => rfl
  simpa using hone

end Rescales

/-- New variables, and clauses that bind for one value of a variable each. -/
theorem Grows.exists_guarded {f₁ f₂ : Formula} (hxs : Grows f f₁ xs [])
    (hps : Grows f₁ f₂ [] ((ps.map (v.negative :: ·)).map .clause))
    (hns : Grows f₂ g [] ((ns.map (v.positive :: ·)).map .clause)) :
    ∃ added, Grows f g xs added ∧ (∀ line ∈ added, line.IsAdded) ∧ added.flatMap Line.clauses = guarded v ps ns := by
  have hgrows := (hxs.trans hps).trans hns
  simp only [List.append_nil, List.nil_append] at hgrows
  refine ⟨_, hgrows, List.forall_mem_append.mpr ⟨isAdded_of_mem_map, isAdded_of_mem_map⟩, ?_⟩
  rw [List.flatMap_append, flatMap_clauses, flatMap_clauses, guarded]

/-- New variables whose number of assignments depends on an old variable rescale by these numbers. -/
theorem Grows.rescales {added : List Line} {q : Bool → ℚ} (h : Grows f g xs added) (hr : f.SupportInRange)
    (hadded : ∀ line ∈ added, line.IsAdded) (hv : v ∈ f.free) (hp : Threshold lp p ps)
    (hn : Threshold ln n ns) (hlp : lp.map Literal.var = xs) (hln : ln.map Literal.var = xs)
    (hclauses : added.flatMap Line.clauses = guarded v ps ns)
    (hq : ∀ b, (d : ℚ) * q b = if b then p else n) : Rescales f g d fun m => q (m v) where
  free := h.free ▸ Finset.subset_union_left
  supportInRange := h.supportInRange hr
  weight := h.weight
  restrict m := by rw [restrict_of_mem hv]
  sum hf := by
    have hover : OnlyOver (fun u => u = v ∨ u ∈ xs.toFinset) (added.flatMap Line.clauses) := by
      rw [hclauses]
      refine onlyOver_guarded (.inl rfl) (hp.onlyOver.mono fun u hu => ?_) (hn.onlyOver.mono fun u hu => ?_)
      · exact .inr (List.mem_toFinset.mpr (hlp ▸ hu))
      · exact .inr (List.mem_toFinset.mpr (hln ▸ hu))
    have hvx : v ∉ xs := fun hx =>
      Finset.disjoint_left.mp (h.disjoint_free hr) hv (List.mem_toFinset.mpr hx)
    obtain ⟨cnf', hg, hsum⟩ := h.sum_models hr hf hadded hv hover
    refine ⟨cnf', hg, fun W hW => ?_⟩
    rw [hsum W hW, Finset.mul_sum]
    apply Finset.sum_congr rfl
    intro m _
    rw [hclauses, extensions_guarded hp hn hlp hln hvx h.nodup, ← mul_assoc, hq]

end Formula

end WeightedCnf

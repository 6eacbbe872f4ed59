import Mathlib.Algebra.BigOperators.Ring.Finset
import Mathlib.Algebra.Ring.Rat
import Mathlib.Data.Fintype.Pi
import WeightedCnf.Cnf.Basic

/-! Models and projected models of clauses. A valuation gives a value to every variable there can
be, so a formula that gains variables keeps its valuations. -/
namespace WeightedCnf

instance : Finite Variable :=
  Finite.of_injective (fun v => (⟨v.index, v.index_lt⟩ : Fin Variable.limit)) fun v w h => by
    cases v
    cases w
    simpa using h

noncomputable instance : Fintype Variable := Fintype.ofFinite Variable

abbrev Valuation := Variable → Bool

/-- The clauses have no variables without this property. -/
def OnlyOver (p : Variable → Prop) (clauses : List Clause) : Prop :=
  ∀ c ∈ clauses, ∀ l ∈ c, p l.var

namespace OnlyOver
variable {p q : Variable → Prop} {cs ds : List Clause}

theorem mono (h : OnlyOver p cs) (hpq : ∀ v, p v → q v) : OnlyOver q cs :=
  fun c hc l hl => hpq _ (h c hc l hl)

theorem append (hc : OnlyOver p cs) (hd : OnlyOver p ds) : OnlyOver p (cs ++ ds) := by
  intro c hmem
  exact (List.mem_append.mp hmem).elim (hc c) (hd c)

end OnlyOver

namespace Valuation
variable {a b : Valuation} {s t : Finset Variable} {cs ds : List Clause}

def literal (a : Valuation) (l : Literal) : Bool :=
  a l.var == l.positive

def satisfies (a : Valuation) (clauses : List Clause) : Bool :=
  clauses.all fun c => c.any a.literal

/-- The same values on a set of variables, and false elsewhere. -/
def restrict (a : Valuation) (s : Finset Variable) : Valuation :=
  fun v => if v ∈ s then a v else false

theorem restrict_of_mem {v : Variable} (h : v ∈ s) : a.restrict s v = a v := if_pos h

theorem restrict_of_notMem {v : Variable} (h : v ∉ s) : a.restrict s v = false := if_neg h

theorem restrict_congr (h : ∀ v ∈ s, a v = b v) : a.restrict s = b.restrict s := by
  funext v
  by_cases hv : v ∈ s
  · rw [restrict_of_mem hv, restrict_of_mem hv, h v hv]
  · rw [restrict_of_notMem hv, restrict_of_notMem hv]

theorem restrict_restrict (h : s ⊆ t) : (a.restrict t).restrict s = a.restrict s :=
  restrict_congr fun _ hv => restrict_of_mem (h hv)

theorem satisfies_append : a.satisfies (cs ++ ds) = (a.satisfies cs && a.satisfies ds) :=
  List.all_append

theorem satisfies_congr (h : OnlyOver (fun v => a v = b v) cs) : a.satisfies cs = b.satisfies cs := by
  unfold satisfies
  rw [Bool.eq_iff_iff, List.all_eq_true, List.all_eq_true]
  apply forall₂_congr
  intro c hc
  rw [List.any_eq_true, List.any_eq_true]
  refine exists_congr fun l => and_congr_right fun hl => ?_
  rw [literal, literal, h c hc l hl]

end Valuation

/-- The distinct restrictions of the models of some clauses to a set of variables. -/
noncomputable def projectedModels (clauses : List Clause) (s : Finset Variable) : Finset Valuation :=
  (Finset.univ.filter fun a : Valuation => a.satisfies clauses).image (·.restrict s)

noncomputable def Cnf.models (cnf : Cnf) (s : Finset Variable) : Finset Valuation :=
  projectedModels cnf.clauses s

theorem mem_projectedModels {clauses : List Clause} {s : Finset Variable} {m : Valuation} :
    m ∈ projectedModels clauses s ↔ ∃ a : Valuation, a.satisfies clauses ∧ a.restrict s = m := by
  simp only [projectedModels, Finset.mem_image, Finset.mem_filter, Finset.mem_univ, true_and]

/-- In how many ways the variables of `s` can be chosen such that the clauses hold where `v` has the
value `b`. -/
noncomputable def extensions (clauses : List Clause) (s : Finset Variable) (v : Variable) (b : Bool) : Nat :=
  (Finset.univ.filter fun t : Valuation =>
    t.restrict s = t ∧ Valuation.satisfies (Function.update t v b) clauses).card

section Extension
open WeightedCnf.Valuation
variable {F A : List Clause} {s x : Finset Variable} {u v : Variable} {t m : Valuation}

private def glue (x : Finset Variable) (m t : Valuation) : Valuation :=
  fun u => if u ∈ x then t u else m u

private theorem glue_of_mem (h : u ∈ x) : glue x m t u = t u := if_pos h

private theorem glue_of_notMem (h : u ∉ x) : glue x m t u = m u := if_neg h

private theorem update_satisfies {a : Valuation} (hA : OnlyOver (fun u => u = v ∨ u ∈ x) A)
    (hv : v ∉ x) (ht : ∀ u ∈ x, t u = a u) :
    satisfies (Function.update t v (a v)) A = a.satisfies A := by
  refine satisfies_congr (hA.mono fun u hu => ?_)
  rcases hu with rfl | hu
  · exact Function.update_self ..
  · have hne : u ≠ v := by
      rintro rfl
      exact hv hu
    rw [Function.update_of_ne hne, ht u hu]

/-- A projected model of the larger formula is a projected model of the smaller one together with
values of the new variables. -/
private theorem card_fiber (hv : v ∈ s) (hx : Disjoint s x) (hF : OnlyOver (· ∉ x) F)
    (hA : OnlyOver (fun u => u = v ∨ u ∈ x) A) (hm : m ∈ projectedModels F s) :
    ((projectedModels (F ++ A) (s ∪ x)).filter fun m' => m'.restrict s = m).card =
      extensions A x v (m v) := by
  have hvx : v ∉ x := Finset.disjoint_left.mp hx hv
  obtain ⟨a, ha, rfl⟩ := mem_projectedModels.mp hm
  refine Finset.card_nbij' (·.restrict x) (glue x (a.restrict s)) ?_ ?_ ?_ ?_
  · intro m' hm'
    obtain ⟨hmem, hres⟩ := Finset.mem_filter.mp (Finset.mem_coe.mp hm')
    obtain ⟨b, hb, rfl⟩ := mem_projectedModels.mp hmem
    rw [satisfies_append, Bool.and_eq_true] at hb
    have hbv : a.restrict s v = b v := by
      rw [← hres, restrict_of_mem hv, restrict_of_mem (Finset.mem_union_left x hv)]
    have hbx : ∀ u ∈ x, (b.restrict (s ∪ x)).restrict x u = b u := by
      intro u hu
      rw [restrict_of_mem hu, restrict_of_mem (Finset.mem_union_right s hu)]
    refine Finset.mem_coe.mpr (Finset.mem_filter.mpr ⟨Finset.mem_univ _, restrict_restrict subset_rfl, ?_⟩)
    rw [hbv, update_satisfies hA hvx hbx, hb.2]
  · intro t ht
    obtain ⟨-, ht, hsat⟩ := Finset.mem_filter.mp (Finset.mem_coe.mp ht)
    refine Finset.mem_coe.mpr (Finset.mem_filter.mpr ⟨mem_projectedModels.mpr ⟨glue x a t, ?_, ?_⟩, ?_⟩)
    · rw [satisfies_append, Bool.and_eq_true]
      constructor
      · rw [satisfies_congr (hF.mono fun u hu => glue_of_notMem hu), ha]
      · rw [restrict_of_mem hv, ← glue_of_notMem (m := a) (t := t) hvx] at hsat
        rwa [update_satisfies hA hvx fun u hu => (glue_of_mem hu).symm] at hsat
    · funext u
      by_cases hux : u ∈ x
      · rw [restrict_of_mem (Finset.mem_union_right s hux), glue_of_mem hux, glue_of_mem hux]
      · rw [glue_of_notMem hux]
        by_cases hus : u ∈ s
        · rw [restrict_of_mem (Finset.mem_union_left x hus), glue_of_notMem hux, restrict_of_mem hus]
        · rw [restrict_of_notMem (by simp [hux, hus]), restrict_of_notMem hus]
    · rw [restrict_congr fun u hu => glue_of_notMem (Finset.disjoint_left.mp hx hu)]
      exact restrict_restrict subset_rfl
  · intro m' hm'
    obtain ⟨hmem, hres⟩ := Finset.mem_filter.mp (Finset.mem_coe.mp hm')
    obtain ⟨b, -, rfl⟩ := mem_projectedModels.mp hmem
    funext u
    by_cases hux : u ∈ x
    · exact (glue_of_mem hux).trans (restrict_of_mem hux)
    · rw [glue_of_notMem hux, ← hres]
      by_cases hus : u ∈ s
      · rw [restrict_of_mem hus]
      · rw [restrict_of_notMem hus, restrict_of_notMem (by simp [hux, hus])]
  · intro t ht
    obtain ⟨-, ht, -⟩ := Finset.mem_filter.mp (Finset.mem_coe.mp ht)
    conv_rhs => rw [← ht]
    exact restrict_congr fun u hu => glue_of_mem hu

/-- Clauses over one old and some new variables multiply the weight of every projected model by the
number of its extensions to the new variables. -/
theorem sum_projectedModels_append (hv : v ∈ s) (hx : Disjoint s x) (hF : OnlyOver (· ∉ x) F)
    (hA : OnlyOver (fun u => u = v ∨ u ∈ x) A) {W : Valuation → ℚ}
    (hW : ∀ m, W (m.restrict s) = W m) :
    ∑ m ∈ projectedModels (F ++ A) (s ∪ x), W m =
      ∑ m ∈ projectedModels F s, (extensions A x v (m v) : ℚ) * W m := by
  have hmaps : ∀ m' ∈ projectedModels (F ++ A) (s ∪ x), m'.restrict s ∈ projectedModels F s := by
    intro m' hm'
    obtain ⟨a, ha, rfl⟩ := mem_projectedModels.mp hm'
    rw [satisfies_append, Bool.and_eq_true] at ha
    exact mem_projectedModels.mpr ⟨a, ha.1, (restrict_restrict Finset.subset_union_left).symm⟩
  rw [← Finset.sum_fiberwise_of_maps_to hmaps]
  apply Finset.sum_congr rfl
  intro m hm
  have hconst : ∀ m' ∈ (projectedModels (F ++ A) (s ∪ x)).filter (fun m' => m'.restrict s = m),
      W m' = W m := by
    intro m' hm'
    rw [← hW m', (Finset.mem_filter.mp hm').2]
  rw [Finset.sum_congr rfl hconst, Finset.sum_const, card_fiber hv hx hF hA hm, nsmul_eq_mul]

end Extension

end WeightedCnf
